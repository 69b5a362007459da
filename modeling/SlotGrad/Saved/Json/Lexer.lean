import SlotGrad.Saved.Json.Basic

/-!
# Tokens of JSON text

JSON text is cut into tokens: marks, words, numbers and texts, with blanks between them.

## Main definitions

* `Token` — the tokens.
* `Lexer.number?`, `Lexer.text?` — a number and a text at the start of some characters.
* `Lexer.tokens?` — the tokens of a text.
-/

namespace SlotGrad
namespace Saved

/-- The tokens of JSON text. -/
inductive Token (F : Type) where
  /-- The mark that opens an array. -/
  | openArray
  /-- The mark that closes an array. -/
  | closeArray
  /-- The mark that opens an object. -/
  | openObject
  /-- The mark that closes an object. -/
  | closeObject
  /-- The mark between members. -/
  | comma
  /-- The mark between a key and its value. -/
  | colon
  /-- The null value. -/
  | null
  /-- A flag. -/
  | bool (b : Bool)
  /-- A number without fraction or exponent. -/
  | integer (n : Int)
  /-- Any other number. -/
  | real (x : F)
  /-- A text. -/
  | text (s : String)

namespace Lexer

/-- The blanks between tokens. -/
def isBlank (c : Char) : Bool := c = ' ' || c = '\t' || c = '\n' || c = '\r'

/-! ### Texts -/

/-- The value of a hexadecimal digit. -/
def hexDigit? (c : Char) : Option Nat :=
  if '0' ≤ c ∧ c ≤ '9' then some (c.toNat - 48)
  else if 'a' ≤ c ∧ c ≤ 'f' then some (c.toNat - 87)
  else if 'A' ≤ c ∧ c ≤ 'F' then some (c.toNat - 55)
  else none

/-- The UTF-16 unit that four hexadecimal digits write. -/
def unit? (a b c d : Char) : Option Nat := do
  return 4096 * (← hexDigit? a) + 256 * (← hexDigit? b) + 16 * (← hexDigit? c) + (← hexDigit? d)

/-- Whether a UTF-16 unit is the first half of a character. -/
def isHigh (n : Nat) : Bool := 0xd800 ≤ n && n < 0xdc00

/-- Whether a UTF-16 unit is the second half of a character. -/
def isLow (n : Nat) : Bool := 0xdc00 ≤ n && n < 0xe000

/-- The character of two halves. -/
def joined (high low : Nat) : Char :=
  Char.ofNat (0x10000 + 0x400 * (high - 0xd800) + (low - 0xdc00))

/-- The character of a UTF-16 unit; half of a character stands for a missing one. -/
def single (n : Nat) : Char := if isHigh n || isLow n then '\ufffd' else Char.ofNat n

/-- The character that a one-letter escape writes. -/
def shortEscape? (c : Char) : Option Char :=
  match c with
  | '"' => some '"'
  | '\\' => some '\\'
  | '/' => some '/'
  | 'b' => some '\x08'
  | 'f' => some '\x0c'
  | 'n' => some '\n'
  | 'r' => some '\r'
  | 't' => some '\t'
  | _ => none

/-- The rest of a text up to its closing quotation mark, and what follows.  Control characters
have to be escaped. -/
def text? : List Char → Option (List Char × List Char)
  | '"' :: rest => some ([], rest)
  | '\\' :: 'u' :: a :: b :: c :: d :: '\\' :: 'u' :: a' :: b' :: c' :: d' :: rest => do
    let n ← unit? a b c d
    match isHigh n, unit? a' b' c' d' with
    | true, some m =>
      if isLow m then
        let (cs, rest) ← text? rest
        return (joined n m :: cs, rest)
      else
        let (cs, rest) ← text? ('\\' :: 'u' :: a' :: b' :: c' :: d' :: rest)
        return (single n :: cs, rest)
    | _, _ =>
      let (cs, rest) ← text? ('\\' :: 'u' :: a' :: b' :: c' :: d' :: rest)
      return (single n :: cs, rest)
  | '\\' :: 'u' :: a :: b :: c :: d :: rest => do
    let n ← unit? a b c d
    let (cs, rest) ← text? rest
    return (single n :: cs, rest)
  | '\\' :: c :: rest => do
    let e ← shortEscape? c
    let (cs, rest) ← text? rest
    return (e :: cs, rest)
  | c :: rest => do
    if c.toNat < 0x20 then failure
    let (cs, rest) ← text? rest
    return (c :: cs, rest)
  | [] => none
termination_by cs => cs.length

/-! ### Numbers -/

variable {F : Type} [Interchange F]

/-- A run of ASCII digits and what follows. -/
def digits (cs : List Char) : List Char × List Char :=
  (cs.takeWhile Char.isDigit, cs.dropWhile Char.isDigit)

/-- The integral digits of a number, which start with a zero only if it is the only one. -/
def whole? (cs : List Char) : Option (List Char × List Char) :=
  match cs with
  | '0' :: rest => some (['0'], rest)
  | cs =>
    match digits cs with
    | ([], _) => none
    | (ds, rest) => some (ds, rest)

/-- The digits after a point, if there are any. -/
def fraction (cs : List Char) : List Char × List Char :=
  match cs with
  | '.' :: rest =>
    match digits rest with
    | ([], _) => ([], cs)
    | (ds, rest) => (ds, rest)
  | cs => ([], cs)

/-- The exponent, if there is one. -/
def exponent (cs : List Char) : Option Int × List Char :=
  match cs with
  | c :: rest =>
    if c = 'e' ∨ c = 'E' then
      let (negative, rest) := Numeral.takeSign rest
      match digits rest with
      | ([], _) => (none, cs)
      | (ds, rest) =>
        let n := Numeral.natOfDigits ds
        (some (if negative then -(n : Int) else n), rest)
    else (none, cs)
  | [] => (none, cs)

/-- An unsigned number and what follows: an integer, unless it has a fraction or an exponent.  An
integer with too many digits is not read. -/
def number? (negative : Bool) (cs : List Char) : Option (Token F × List Char) := do
  let (ds, rest) ← whole? cs
  let (fs, rest) := fraction rest
  let (e, rest) := exponent rest
  if fs.isEmpty && e.isNone then
    if Json.mostDigits < ds.length then failure
    let n := Numeral.natOfDigits ds
    return (.integer (if negative then -(n : Int) else n), rest)
  else
    let bits := Numeral.signedBits negative (Numeral.magnitudeOf ds fs (e.getD 0))
    return (.real (Interchange.ofBits bits.toUInt64), rest)

/-! ### Tokens -/

/-- The words of JSON text and the tokens that they write. -/
def words : List (String × Token F) :=
  let special (bits : Nat) : Token F := .real (Interchange.ofBits bits.toUInt64)
  [("null", .null), ("true", .bool true), ("false", .bool false),
   ("NaN", special BinaryFormat.double.quietNaN),
   ("Infinity", special BinaryFormat.double.infinity),
   ("-Infinity", special (Numeral.signedBits true BinaryFormat.double.infinity))]

/-- The word at the start of some characters, and what follows. -/
def word? (cs : List Char) : Option (Token F × List Char) :=
  words.findSome? fun (w, t) =>
    if w.toList.isPrefixOf cs then some (t, cs.drop w.length) else none

/-- The token at the start of some characters, and what follows. -/
def token? (cs : List Char) : Option (Token F × List Char) :=
  match cs with
  | [] => none
  | c :: rest =>
    match c with
    | '[' => some (.openArray, rest)
    | ']' => some (.closeArray, rest)
    | '\x7b' => some (.openObject, rest)
    | '\x7d' => some (.closeObject, rest)
    | ',' => some (.comma, rest)
    | ':' => some (.colon, rest)
    | '"' => (text? rest).map fun (s, rest) => (.text (String.ofList s), rest)
    | c =>
      match word? cs with
      | some found => some found
      | none => if c = '-' then number? true rest else number? false cs

/-- The tokens of some characters; the fuel bounds their number. -/
def tokensWith? (fuel : Nat) (cs : List Char) : Option (List (Token F)) :=
  match fuel, cs.dropWhile isBlank with
  | _, [] => some []
  | 0, _ => none
  | fuel + 1, cs => do
    let (t, rest) ← token? cs
    return t :: (← tokensWith? fuel rest)

/-- The tokens of a text. -/
def tokens? (s : String) : Option (List (Token F)) :=
  let cs := s.toList
  tokensWith? cs.length cs

end Lexer
end Saved
end SlotGrad
