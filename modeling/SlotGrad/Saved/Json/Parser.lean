import SlotGrad.Saved.Json.Lexer

/-!
# Reading JSON

The tree of a list of tokens.  A key that is given twice has the value given last, in the place of
its first occurrence.

## Main definitions

* `Parser.value?`, `Parser.members?`, `Parser.entries?` — a tree, the members of an array and the
  entries of an object at the start of some tokens.
* `Json.read?` — the tree of a text.
-/

namespace SlotGrad
namespace Saved

variable {F : Type}

namespace Parser

/-- Entries with one more: in the place of the entry of its key, or after all others. -/
def putEntry (es : List (String × Json F)) (k : String) (x : Json F) : List (String × Json F) :=
  if es.any fun e => e.1 == k then es.map fun e => if e.1 == k then (k, x) else e
  else es ++ [(k, x)]

mutual

/-- The tree at the start of some tokens, and what follows.  The fuel bounds the number of trees
on the way. -/
def value? (fuel : Nat) (ts : List (Token F)) : Option (Json F × List (Token F)) :=
  match fuel with
  | 0 => none
  | fuel + 1 =>
    match ts with
    | .null :: ts => some (.null, ts)
    | .bool b :: ts => some (.bool b, ts)
    | .integer n :: ts => some (.integer n, ts)
    | .real x :: ts => some (.real x, ts)
    | .text s :: ts => some (.text s, ts)
    | .openArray :: .closeArray :: ts => some (.array [], ts)
    | .openArray :: ts => do
      let (xs, ts) ← members? fuel ts
      return (.array xs, ts)
    | .openObject :: .closeObject :: ts => some (.object [], ts)
    | .openObject :: ts => do
      let (es, ts) ← entries? fuel [] ts
      return (.object es, ts)
    | _ => none

/-- The members of an array up to its closing mark, and what follows. -/
def members? (fuel : Nat) (ts : List (Token F)) : Option (List (Json F) × List (Token F)) :=
  match fuel with
  | 0 => none
  | fuel + 1 => do
    let (x, ts) ← value? fuel ts
    match ts with
    | .closeArray :: ts => return ([x], ts)
    | .comma :: ts => do
      let (xs, ts) ← members? fuel ts
      return (x :: xs, ts)
    | _ => none

/-- The entries of an object up to its closing mark, after those already read, and what
follows. -/
def entries? (fuel : Nat) (es : List (String × Json F)) (ts : List (Token F)) :
    Option (List (String × Json F) × List (Token F)) :=
  match fuel with
  | 0 => none
  | fuel + 1 =>
    match ts with
    | .text k :: .colon :: ts => do
      let (x, ts) ← value? fuel ts
      let es := putEntry es k x
      match ts with
      | .closeObject :: ts => return (es, ts)
      | .comma :: ts => entries? fuel es ts
      | _ => none
    | _ => none

end

/-- The tree that all of some tokens make. -/
def tree? (ts : List (Token F)) : Option (Json F) :=
  match value? (2 * ts.length + 1) ts with
  | some (j, []) => some j
  | _ => none

end Parser

/-- The tree of a text. -/
def Json.read? [Interchange F] (s : String) : Option (Json F) := do
  Parser.tree? (← Lexer.tokens? s)

end Saved
end SlotGrad
