import Autodiff.Text.Hex

/-!
# JSON documents

A strict reader of JSON texts.  Members of an object stay in their order and may repeat, so that a
caller can tell; numbers are told apart by what the settings need, a natural number of 64 bits or
anything else.
-/

namespace Autodiff.Text

inductive Json where
  | null
  | bool (b : Bool)
  /-- A number written without sign, fraction and exponent that fits into 64 bits. -/
  | natural (n : Nat)
  | otherNumber
  /-- A string, or nothing when an escape names half of a surrogate pair. -/
  | string (s : Option String)
  | array (items : List Json)
  | object (members : List (Option String × Json))

namespace Json

/-! Every reader gives what it read and the rest, or nothing if the text is malformed. -/

def isBlank (c : Char) : Bool := c = ' ' || c = '\t' || c = '\n' || c = '\r'

def skip (cs : List Char) : List Char := cs.dropWhile isBlank

def literal (word : List Char) (v : Json) (cs : List Char) : Option (Json × List Char) :=
  if cs.take word.length = word then some (v, cs.drop word.length) else none

/-! ## Numbers -/

def digitsValue (ds : List Char) : Nat := ds.foldl (fun n c => 10 * n + (c.toNat - 48)) 0

def digits (cs : List Char) : Option (List Char × List Char) :=
  match cs.takeWhile Char.isDigit with
  | [] => none
  | ds => some (ds, cs.dropWhile Char.isDigit)

/-- An optional part that starts with one of the given characters; says whether it is there. -/
def part (starts : List Char) (body : List Char → Option (List Char × List Char)) (cs : List Char) :
    Option (Bool × List Char) :=
  match cs with
  | c :: rest => if c ∈ starts then (body rest).map fun r => (true, r.2) else some (false, cs)
  | [] => some (false, [])

def exponent : List Char → Option (List Char × List Char)
  | '+' :: cs => digits cs
  | '-' :: cs => digits cs
  | cs => digits cs

/-- A number without its sign. A leading zero stands alone. -/
def number (negative : Bool) (cs : List Char) : Option (Json × List Char) := do
  let (ds, cs) ← digits cs
  if ds.length > 1 ∧ ds.head? = some '0' then none
  let (hasFraction, cs) ← part ['.'] digits cs
  let (hasExponent, cs) ← part ['e', 'E'] exponent cs
  let n := digitsValue ds
  let plain := !negative && !hasFraction && !hasExponent && decide (n < UInt64.size)
  return (if plain then natural n else otherNumber, cs)

/-! ## Strings -/

def codeUnit : List Char → Option (Nat × List Char)
  | a :: b :: c :: d :: cs => do
    let n ← Hex.number? [a, b, c, d]
    return (n, cs)
  | _ => none

def shortEscape? : Char → Option Nat
  | '"' => some 0x22
  | '\\' => some 0x5C
  | '/' => some 0x2F
  | 'b' => some 0x08
  | 'f' => some 0x0C
  | 'n' => some 0x0A
  | 'r' => some 0x0D
  | 't' => some 0x09
  | _ => none

/-- The code points and halves of surrogate pairs of a string after its opening quote. -/
def units : Nat → List Char → Option (List Nat × List Char)
  | 0, _ => none
  | _ + 1, [] => none
  | _ + 1, '"' :: cs => some ([], cs)
  | fuel + 1, '\\' :: 'u' :: cs => do
    let (n, cs) ← codeUnit cs
    let (ns, cs) ← units fuel cs
    return (n :: ns, cs)
  | fuel + 1, '\\' :: c :: cs => do
    let n ← shortEscape? c
    let (ns, cs) ← units fuel cs
    return (n :: ns, cs)
  | fuel + 1, c :: cs =>
    if c = '\\' ∨ c.toNat < 0x20 then none
    else do
      let (ns, cs) ← units fuel cs
      return (c.toNat :: ns, cs)

/-- The characters of a string; a high half of a pair needs a low half behind it. -/
def characters : List Nat → Option (List Char)
  | [] => some []
  | n :: ns =>
    if 0xD800 ≤ n ∧ n < 0xDC00 then
      match ns with
      | m :: ns =>
        if 0xDC00 ≤ m ∧ m < 0xE000 then
          (characters ns).map (Char.ofNat (0x10000 + (n - 0xD800) * 0x400 + (m - 0xDC00)) :: ·)
        else none
      | [] => none
    else if 0xDC00 ≤ n ∧ n < 0xE000 then none
    else (characters ns).map (Char.ofNat n :: ·)

def text (cs : List Char) : Option (Option String × List Char) := do
  let (ns, cs) ← units (cs.length + 1) cs
  return ((characters ns).map String.ofList, cs)

/-! ## Values -/

mutual

/-- A value behind blanks. `fuel` bounds the depth and is never used up by a text of that length. -/
def value : Nat → List Char → Option (Json × List Char)
  | 0, _ => none
  | fuel + 1, cs =>
    match skip cs with
    | '"' :: cs => (text cs).map fun r => (string r.1, r.2)
    | '[' :: cs =>
      match skip cs with
      | ']' :: cs => some (array [], cs)
      | cs => (items fuel cs).map fun r => (array r.1, r.2)
    | '\x7b' :: cs =>
      match skip cs with
      | '\x7d' :: cs => some (object [], cs)
      | cs => (members fuel cs).map fun r => (object r.1, r.2)
    | '-' :: cs => number true cs
    | 't' :: cs => literal ['r', 'u', 'e'] (bool true) cs
    | 'f' :: cs => literal ['a', 'l', 's', 'e'] (bool false) cs
    | 'n' :: cs => literal ['u', 'l', 'l'] null cs
    | cs => number false cs

def items : Nat → List Char → Option (List Json × List Char)
  | 0, _ => none
  | fuel + 1, cs => do
    let (v, cs) ← value fuel cs
    match skip cs with
    | ']' :: cs => return ([v], cs)
    | ',' :: cs =>
      let (vs, cs) ← items fuel cs
      return (v :: vs, cs)
    | _ => none

def members : Nat → List Char → Option ((List (Option String × Json)) × List Char)
  | 0, _ => none
  | fuel + 1, cs => do
    let (name, cs) ← match skip cs with
      | '"' :: cs => text cs
      | _ => none
    let (v, cs) ← match skip cs with
      | ':' :: cs => value fuel cs
      | _ => none
    match skip cs with
    | '\x7d' :: cs => return ([(name, v)], cs)
    | ',' :: cs =>
      let (ms, cs) ← members fuel cs
      return ((name, v) :: ms, cs)
    | _ => none

end

/-- The value of a whole text, with nothing but blanks around it. -/
def parse? (s : String) : Option Json := do
  let cs := s.toList
  let (v, rest) ← value (2 * cs.length + 2) cs
  if skip rest = [] then some v else none

end Json

end Autodiff.Text
