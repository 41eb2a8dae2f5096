/-!
# Arithmetic in scripts

Expressions over whole numbers: variables, the four operations and remainders, comparisons and
conjunctions, which give one or zero. Division goes toward zero.

- `Arithmetic.combine?` is what an operator means; `Arithmetic.levels` ranks the operators.
- `Arithmetic.value?` is the value of a text, given the values of variables. Whatever has no value,
  such as a division by zero or a text that is no expression, gives none.
-/

namespace AssetServer.Shell.Arithmetic

/-! ## §1 Operators -/

/-- The operators from the loosest to the tightest, longer ones before those they start with. -/
def levels : List (List String) :=
  [["||"], ["&&"], ["==", "!="], ["<=", ">=", "<", ">"], ["+", "-"], ["*", "/", "%"]]

/-- One or zero. -/
def truth (b : Bool) : Int :=
  if b then 1 else 0

/-- What an operator makes of two numbers; none for a division by zero. -/
def combine? (op : String) (a b : Int) : Option Int :=
  match op with
  | "||" => some (truth (a != 0 || b != 0))
  | "&&" => some (truth (a != 0 && b != 0))
  | "==" => some (truth (a == b))
  | "!=" => some (truth (a != b))
  | "<=" => some (truth (a ≤ b))
  | ">=" => some (truth (b ≤ a))
  | "<" => some (truth (a < b))
  | ">" => some (truth (b < a))
  | "+" => some (a + b)
  | "-" => some (a - b)
  | "*" => some (a * b)
  | "/" => if b = 0 then none else some (a.tdiv b)
  | "%" => if b = 0 then none else some (a.tmod b)
  | _ => none

/-! ## §2 Expressions -/

/-- Characters without the white space in front. -/
def skipSpace (cs : List Char) : List Char :=
  cs.dropWhile fun c => c == ' ' || c == '\t' || c == '\n'

/-- The operator at the front that is one of some, and what follows. -/
def operator? (ops : List String) (cs : List Char) : Option (String × List Char) :=
  (ops.find? fun op => op.toList.isPrefixOf cs).map fun op => (op, cs.drop op.length)

mutual

/-- An expression whose operators bind at least as tightly as those of a level. -/
def level? (value : String → Int) : Nat → Nat → List Char → Option (Int × List Char)
  | 0, _, _ => none
  | fuel + 1, level, cs =>
    match levels[level]? with
    | none => operand? value fuel (skipSpace cs)
    | some ops => do
      let (a, rest) ← level? value fuel (level + 1) cs
      more? value fuel level ops a rest

/-- The rest of an expression after its first operand. -/
def more? (value : String → Int) :
    Nat → Nat → List String → Int → List Char → Option (Int × List Char)
  | 0, _, _, _, _ => none
  | fuel + 1, level, ops, a, cs =>
    match operator? ops (skipSpace cs) with
    | none => some (a, cs)
    | some (op, rest) => do
      let (b, rest) ← level? value fuel (level + 1) rest
      more? value fuel level ops (← combine? op a b) rest

/-- A number, a variable, a sign or brackets. -/
def operand? (value : String → Int) : Nat → List Char → Option (Int × List Char)
  | 0, _ => none
  | _ + 1, [] => none
  | fuel + 1, c :: rest =>
    if c = '(' then do
      let (n, rest) ← level? value fuel 0 rest
      match skipSpace rest with
      | ')' :: rest => some (n, rest)
      | _ => none
    else if c = '-' then (operand? value fuel (skipSpace rest)).map fun (n, rest) => (-n, rest)
    else if c = '+' ∨ c = '$' then operand? value fuel (skipSpace rest)
    else if c = '!' then
      (operand? value fuel (skipSpace rest)).map fun (n, rest) => (truth (n == 0), rest)
    else
      let name := (c :: rest).takeWhile fun d => d.isAlphanum || d == '_'
      let text := String.ofList name
      if name = [] then none
      else some (match text.toNat? with
        | some n => (n : Int)
        | none => value text, (c :: rest).drop name.length)

end

/-- The value of an expression, if it has one. -/
def value? (value : String → Int) (text : String) : Option Int := do
  let cs := text.toList
  let (n, rest) ← level? value (16 * (cs.length + 2)) 0 cs
  if skipSpace rest = [] then some n else none

end AssetServer.Shell.Arithmetic
