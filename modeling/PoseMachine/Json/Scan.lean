import PoseMachine.Json.Basic
import PoseMachine.Json.Numeral

/-!
Texts of the exchange format. A scan is the tree of a text up to its first defect, which stands in
the tree where it was met. What a reader makes of a defect depends on what it looks for, and some
defects only count where a value is used.
-/

namespace PoseMachine

inductive ReadError where
  /-- It is well formed but of another shape. -/
  | mismatch
  /-- It is not well formed. -/
  | malformed
  /-- It ends too early. -/
  | incomplete
deriving DecidableEq, Repr

namespace Json

/-- What is wrong where a value should be. -/
inductive Defect where
  | ended
  /-- A character that starts nothing that may stand here. -/
  | stray
  /-- A literal is misspelled or ends early. -/
  | literal (ended : Bool)
  /-- A number is malformed or ends early. -/
  | number (ended : Bool)
  /-- A quoted text is malformed or ends early, maybe after half of a surrogate pair. -/
  | text (unpaired ended : Bool)
deriving DecidableEq, Repr

namespace Defect

/-- The error if the text has come to an end, otherwise that of a malformed one. -/
def endError (ended : Bool) : ReadError := if ended then .incomplete else .malformed

/-- The error where the value is used. -/
def used : Defect → ReadError
  | .ended => .incomplete
  | .stray => .malformed
  | .literal e => endError e
  | .number e => endError e
  | .text unpaired e => if unpaired then .malformed else endError e

/-- The error where the value is passed over. -/
def skipped : Defect → ReadError
  | .ended => .incomplete
  | .stray => .malformed
  | .literal e => endError e
  | .number _ => .malformed
  | .text _ e => endError e

/-- The error where a word is expected. -/
def asWord : Defect → ReadError
  | .ended => .incomplete
  | .text unpaired e => used (.text unpaired e)
  | _ => .malformed

end Defect

/-- What stands in place of a key. -/
inductive Key where
  | name (s : String)
  /-- A text with half of a surrogate pair. -/
  | unpaired
  | broken (d : Defect)

/-- The tree of a text. Where a list or an object is not closed properly, `stop` says how. -/
inductive Scan where
  | null
  | bool (b : Bool)
  | int (n : Int)
  | real (x : Float)
  /-- A number beyond all doubles. -/
  | huge
  | text (s : String)
  /-- A text with half of a surrogate pair. -/
  | unpaired
  | broken (d : Defect)
  | list (items : List Scan) (stop : Option ReadError)
  | object (members : List (Key × Scan)) (stop : Option ReadError)

namespace Scan

/-- The rest of a text behind a token, nothing behind a defect. -/
abbrev Rest := Option (List Char)

def isBlank (c : Char) : Bool := c = ' ' || c = '\n' || c = '\t' || c = '\r'

def skipBlanks (cs : List Char) : List Char := cs.dropWhile isBlank

/-- The rest behind a literal. -/
def literal (s : Scan) : List Char → List Char → Scan × Rest
  | [], cs => (s, some cs)
  | _ :: _, [] => (.broken (.literal true), none)
  | e :: es, c :: cs => if c = e then literal s es cs else (.broken (.literal false), none)

def ofNumber : Number → Scan
  | .int n => .int n
  | .real x => .real x
  | .huge => .huge

def number (negative : Bool) (cs : List Char) : Scan × Rest :=
  match Numeral.ofText negative cs with
  | .ok (n, cs) => (ofNumber n.value, some cs)
  | .error ended => (.broken (.number ended), none)

def hexDigit? (c : Char) : Option Nat :=
  if '0' ≤ c && c ≤ '9' then some (c.toNat - 48)
  else if 'a' ≤ c && c ≤ 'f' then some (c.toNat - 87)
  else if 'A' ≤ c && c ≤ 'F' then some (c.toNat - 55)
  else none

/-- Four hexadecimal digits, and what comes behind them. If they are missing, whether the text ends
within the next four octets. -/
def hex4 : List Char → Except Bool (Nat × List Char)
  | a :: b :: c :: d :: cs =>
    match hexDigit? a, hexDigit? b, hexDigit? c, hexDigit? d with
    | some a, some b, some c, some d => .ok (((a * 16 + b) * 16 + c) * 16 + d, cs)
    | _, _, _, _ => .error false
  | cs => .error (cs.foldl (fun n c => n + c.utf8Size) 0 < 4)

/-- The character that an escape other than a numeric one stands for. -/
def simpleEscape? : Char → Option Char
  | '"' => some '"'
  | '\\' => some '\\'
  | '/' => some '/'
  | 'b' => some '\x08'
  | 'f' => some '\x0c'
  | 'n' => some '\n'
  | 'r' => some '\r'
  | 't' => some '\t'
  | _ => none

/-- What a numeric escape comes to. -/
inductive Unit16 where
  | char (c : Char)
  /-- Half of a pair without the other half. -/
  | half
  /-- Half of a pair at which the text ends. -/
  | cut (ended : Bool)

/-- The character of a numeric escape `n`, for which a second one may be needed. -/
def unit16 (n : Nat) (cs : List Char) : Unit16 × List Char :=
  if n < 0xd800 || 0xdfff < n then (.char (Char.ofNat n), cs)
  else if 0xdc00 ≤ n then (.half, cs)
  else
    match cs with
    | [] => (.cut true, [])
    | ['\\'] => (.cut true, [])
    | '\\' :: 'u' :: ds =>
      match hex4 ds with
      | .error ended => (.cut ended, [])
      | .ok (low, ds) =>
        if 0xdc00 ≤ low && low ≤ 0xdfff then
          (.char (Char.ofNat (0x10000 + (n - 0xd800) * 0x400 + (low - 0xdc00))), ds)
        else (.half, cs)
    | cs => (.half, cs)

/-- A quoted text behind its first quote, with at most `n` more characters and escapes. It has had
half of a surrogate pair if `half` says so. -/
def quoted : Nat → Bool → List Char → List Char → Scan × Rest
  | 0, half, _, _ => (.broken (.text half true), none)
  | _, half, _, [] => (.broken (.text half true), none)
  | n + 1, half, acc, c :: cs =>
    if c = '"' then (if half then .unpaired else .text (String.ofList acc.reverse), some cs)
    else if c.toNat < 32 then (.broken (.text half false), none)
    else if c ≠ '\\' then quoted n half (c :: acc) cs
    else
      match cs with
      | [] => (.broken (.text half true), none)
      | 'u' :: cs =>
        match hex4 cs with
        | .error ended => (.broken (.text half ended), none)
        | .ok (u, cs) =>
          match unit16 u cs with
          | (.char c, cs) => quoted n half (c :: acc) cs
          | (.half, cs) => quoted n true acc cs
          | (.cut ended, _) => (.broken (.text half ended), none)
      | e :: cs =>
        match simpleEscape? e with
        | some c => quoted n half (c :: acc) cs
        | none => (.broken (.text half false), none)

/-- The error of using a scan as a value of another kind. Lists and objects are not looked into. -/
def misused : Scan → ReadError
  | .broken d => d.used
  | .huge => .malformed
  | .unpaired => .malformed
  | _ => .mismatch

/-- A token other than a list or an object, with at most `n` characters. -/
def scalar (n : Nat) : List Char → Scan × Rest
  | [] => (.broken .ended, none)
  | 'n' :: cs => literal .null ['u', 'l', 'l'] cs
  | 't' :: cs => literal (.bool true) ['r', 'u', 'e'] cs
  | 'f' :: cs => literal (.bool false) ['a', 'l', 's', 'e'] cs
  | '-' :: cs => number true cs
  | '"' :: cs => quoted n false [] cs
  | c :: cs => if c.isDigit then number false (c :: cs) else (.broken .stray, none)

def key (n : Nat) (cs : List Char) : Key × Rest :=
  match cs with
  | '"' :: cs =>
    match quoted n false [] cs with
    | (.text s, rest) => (.name s, rest)
    | (.broken d, rest) => (.broken d, rest)
    | (_, rest) => (.unpaired, rest)
  | [] => (.broken .ended, none)
  | _ => (.broken .stray, none)

/-- The text behind a colon, or the defect in place of it. -/
def colon (cs : List Char) : Except Defect (List Char) :=
  match skipBlanks cs with
  | ':' :: cs => .ok cs
  | [] => .error .ended
  | _ => .error .stray

/-- How a list or an object goes on behind an entry. -/
inductive Next where
  | more (cs : List Char)
  | closed (cs : List Char)
  | stopped (error : ReadError)

/-- Looks for a comma or the closing bracket. -/
def next (close : Char) (cs : List Char) : Next :=
  match skipBlanks cs with
  | [] => .stopped .incomplete
  | c :: cs => if c = ',' then .more cs else if c = close then .closed cs else .stopped .malformed

mutual

/-- A value. At most `n` characters and openings of values are read. -/
def value : Nat → List Char → Scan × Rest
  | 0, _ => (.broken .ended, none)
  | n + 1, cs =>
    match skipBlanks cs with
    | '[' :: cs =>
      match skipBlanks cs with
      | ']' :: cs => (.list [] none, some cs)
      | [] => (.list [] (some .incomplete), none)
      | cs => items n [] cs
    | '{' :: cs =>
      match skipBlanks cs with
      | '}' :: cs => (.object [] none, some cs)
      | [] => (.object [] (some .incomplete), none)
      | cs => members n [] cs
    | cs => scalar n cs

def items : Nat → List Scan → List Char → Scan × Rest
  | 0, acc, _ => (.list acc.reverse (some .incomplete), none)
  | n + 1, acc, cs =>
    match value n cs with
    | (s, none) => (.list (s :: acc).reverse (some .incomplete), none)
    | (s, some cs) =>
      match next ']' cs with
      | .more cs => items n (s :: acc) cs
      | .closed cs => (.list (s :: acc).reverse none, some cs)
      | .stopped e => (.list (s :: acc).reverse (some e), none)

def members : Nat → List (Key × Scan) → List Char → Scan × Rest
  | 0, acc, _ => (.object acc.reverse (some .incomplete), none)
  | n + 1, acc, cs =>
    match key n (skipBlanks cs) with
    | (k, none) => (.object ((k, .null) :: acc).reverse (some .incomplete), none)
    | (k, some cs) =>
      match colon cs with
      | .error d => (.object ((k, .broken d) :: acc).reverse (some .incomplete), none)
      | .ok cs =>
        match value n cs with
        | (s, none) => (.object ((k, s) :: acc).reverse (some .incomplete), none)
        | (s, some cs) =>
          match next '}' cs with
          | .more cs => members n ((k, s) :: acc) cs
          | .closed cs => (.object ((k, s) :: acc).reverse none, some cs)
          | .stopped e => (.object ((k, s) :: acc).reverse (some e), none)

end

/-- The tree of a text, and the rest of the text behind it. -/
def ofText (s : String) : Scan × Rest :=
  let cs := s.toList
  value (2 * cs.length + 2) cs

mutual

/-- The value of a tree. What has a defect is null, and members with such keys are left out. -/
def toJson : Scan → Json
  | .bool b => .bool b
  | .int n => .int n
  | .real x => .real x
  | .text s => .text s
  | .list items _ => .list (toItems items)
  | .object members _ => .object (toMembers members)
  | _ => .null

def toItems : List Scan → List Json
  | [] => []
  | s :: ss => s.toJson :: toItems ss

def toMembers : List (Key × Scan) → List (String × Json)
  | [] => []
  | (.name k, s) :: ms => (k, s.toJson) :: toMembers ms
  | _ :: ms => toMembers ms

end

end Scan

end Json

end PoseMachine
