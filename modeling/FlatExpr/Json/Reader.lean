import FlatExpr.Json.Basic

/-!
# Reading JSON

A reader takes a document from the start of a text and answers with what follows it. The number of
levels that arrays and objects may be nested is limited by the caller; a text cannot hold more
levels than it has characters, so its length is as good as no limit.
-/

namespace FlatExpr.Json

/-- Reads a value from the start of a text, and answers with the text after it. -/
abbrev Reader (α : Type) := Text → Option (α × Text)

/-- Whether a character may stand between the parts of a document. -/
def isSpace (c : Char) : Bool := c == ' ' || c == '\n' || c == '\t' || c == '\r'

/-- The text after white space. -/
def skipSpace (t : Text) : Text := t.dropWhile isSpace

/-! ## Numbers -/

/-- The digits at the start of a text, of which there is at least one. -/
def digits : Reader Text := fun t =>
  match t.takeWhile Char.isDigit with
  | [] => none
  | ds => some (ds, t.dropWhile Char.isDigit)

/-- The digits before the point, which start with a zero only if that is all. -/
def whole : Reader Text
  | '0' :: r =>
    match r with
    | c :: _ => if c.isDigit then none else some (['0'], r)
    | [] => some (['0'], r)
  | t => digits t

/-- A point with digits after it, if there is a point. -/
def fraction : Reader Text
  | '.' :: r => digits r
  | t => some ([], t)

/-- The sign of a power of ten: whether it is a minus. -/
def sign : Text → Bool × Text
  | '-' :: r => (true, r)
  | '+' :: r => (false, r)
  | t => (false, t)

/-- A power of ten, if there is one. -/
def power : Reader (Option (Bool × Text))
  | c :: r =>
    if c = 'e' || c = 'E' then do
      let (negative, r) := sign r
      let (ds, r) ← digits r
      return (some (negative, ds), r)
    else some (none, c :: r)
  | [] => some (none, [])

/-- A number without its sign. -/
def magnitude (negative : Bool) : Reader Numeral := fun t => do
  let (w, t) ← whole t
  let (f, t) ← fraction t
  let (e, t) ← power t
  return (⟨negative, w, f, e⟩, t)

/-! ## Strings -/

/-- The value of a hexadecimal digit. -/
def hexValue? (c : Char) : Option Nat :=
  if c.isDigit then some (c.toNat - 48)
  else if 97 ≤ c.toNat && c.toNat ≤ 102 then some (c.toNat - 87)
  else if 65 ≤ c.toNat && c.toNat ≤ 70 then some (c.toNat - 55)
  else none

/-- The value of four hexadecimal digits. -/
def hex4? (a b c d : Char) : Option Nat := do
  return (((← hexValue? a) * 16 + (← hexValue? b)) * 16 + (← hexValue? c)) * 16 + (← hexValue? d)

/-- Whether a 16-bit unit is the first half of a surrogate pair. -/
def isHighHalf (n : Nat) : Bool := 0xD800 ≤ n && n < 0xDC00

/-- Whether a 16-bit unit is the second half of a surrogate pair. -/
def isLowHalf (n : Nat) : Bool := 0xDC00 ≤ n && n < 0xE000

/-- The character that a letter after a backslash stands for. -/
def shortEscape? (c : Char) : Option Char :=
  if c = '"' || c = '\\' || c = '/' then some c
  else if c = 'b' then some '\x08'
  else if c = 'f' then some '\x0c'
  else if c = 'n' then some '\n'
  else if c = 'r' then some '\r'
  else if c = 't' then some '\t'
  else none

/-- What is read from the inside of a string: characters, and the 16-bit units of the escapes that
give one. -/
inductive Piece where
  /-- A character. -/
  | char (c : Char)
  /-- A 16-bit unit. -/
  | unit (n : Nat)
  deriving DecidableEq

/-- The pieces up to the closing quotation mark. Control characters have to be escaped. -/
def pieces : Reader (List Piece)
  | [] => none
  | '"' :: r => some ([], r)
  | '\\' :: 'u' :: a :: b :: c :: d :: r => do
    let n ← hex4? a b c d
    let (ps, r) ← pieces r
    return (.unit n :: ps, r)
  | '\\' :: e :: r => do
    let c ← shortEscape? e
    let (ps, r) ← pieces r
    return (.char c :: ps, r)
  | c :: r =>
    if c.toNat < 32 then none
    else do
      let (ps, r) ← pieces r
      return (.char c :: ps, r)

/-- The text that pieces denote; `none` when half of a surrogate pair stands alone. -/
def denoted : List Piece → Option Text
  | [] => some []
  | .char c :: ps => (denoted ps).map (c :: ·)
  | .unit n :: ps =>
    if isHighHalf n then
      match ps with
      | .unit m :: qs =>
        if isLowHalf m then
          (denoted qs).map (Char.ofNat (0x10000 + (n - 0xD800) * 0x400 + (m - 0xDC00)) :: ·)
        else none
      | _ => none
    else if isLowHalf n then none
    else (denoted ps).map (Char.ofNat n :: ·)

/-- The rest of a string after its opening quotation mark. -/
def content : Reader (Option Text) := fun t => do
  let (ps, t) ← pieces t
  return (denoted ps, t)

/-! ## Documents -/

/-- A word, if the text starts with it. -/
def word (w : String) (j : Json) : Reader Json := fun t =>
  if w.toList.isPrefixOf t then some (j, t.drop w.length) else none

/-- The items of an array after the first opening or comma, up to the closing bracket. -/
def itemsWith (value : Reader Json) : (items : Nat) → Reader (List Json)
  | 0, _ => none
  | items + 1, t => do
    let (j, t) ← value t
    match skipSpace t with
    | ',' :: t => do
      let (js, t) ← itemsWith value items t
      return (j :: js, t)
    | ']' :: t => return ([j], t)
    | _ => none

/-- The fields of an object after the opening or a comma, up to the closing brace. -/
def fieldsWith (value : Reader Json) : (fields : Nat) → Reader (List (Option Text × Json))
  | 0, _ => none
  | fields + 1, t =>
    match skipSpace t with
    | '"' :: t => do
      let (name, t) ← content t
      match skipSpace t with
      | ':' :: t => do
        let (j, t) ← value t
        match skipSpace t with
        | ',' :: t => do
          let (fs, t) ← fieldsWith value fields t
          return ((name, j) :: fs, t)
        | '\x7d' :: t => return ([(name, j)], t)
        | _ => none
      | _ => none
    | _ => none

/-- The inside of an array. -/
def arrayWith (value : Reader Json) : Reader Json := fun t =>
  match skipSpace t with
  | ']' :: r => some (.array [], r)
  | _ => (itemsWith value t.length t).map fun p => (.array p.1, p.2)

/-- The inside of an object. -/
def objectWith (value : Reader Json) : Reader Json := fun t =>
  match skipSpace t with
  | '\x7d' :: r => some (.object [], r)
  | _ => (fieldsWith value t.length t).map fun p => (.object p.1, p.2)

/-- A document, with a number of levels left for nested arrays and objects. -/
def value : (levels : Nat) → Reader Json
  | levels, t =>
    match skipSpace t with
    | '"' :: t => (content t).map fun p => (.string p.1, p.2)
    | '-' :: t => (magnitude true t).map fun p => (.number p.1, p.2)
    | '[' :: t =>
      match levels with
      | 0 => none
      | levels + 1 => arrayWith (value levels) t
    | '\x7b' :: t =>
      match levels with
      | 0 => none
      | levels + 1 => objectWith (value levels) t
    | 'n' :: t => word "ull" .null t
    | 't' :: t => word "rue" (.bool true) t
    | 'f' :: t => word "alse" (.bool false) t
    | t => (magnitude false t).map fun p => (.number p.1, p.2)

/-- The document that a whole text holds, with arrays and objects nested within a limit. -/
def parseWithin? (levels : Nat) (t : Text) : Option Json := do
  let (j, rest) ← value levels t
  if (skipSpace rest).isEmpty then some j else none

/-- The document that a whole text holds. -/
def parse? (t : Text) : Option Json := parseWithin? t.length t

end FlatExpr.Json
