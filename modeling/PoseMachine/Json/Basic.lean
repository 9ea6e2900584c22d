import PoseMachine.Single.Double
import PoseMachine.Single.Pattern

/-!
Values of the exchange format, and the parts that records are read from. A record is an object of
its fields, or a list of them in order. For each type of records, `toJson` gives the value of one and
`ofJson?` reads one.
-/

namespace PoseMachine

/-- A value. Whole numbers are kept apart from all others. -/
inductive Json where
  | null
  | bool (b : Bool)
  | int (n : Int)
  | real (x : Float)
  | text (s : String)
  | list (items : List Json)
  | object (members : List (String × Json))

namespace Json

/-- The value of a single. Infinities and NaN have none. -/
def ofSingle (x : Float32) : Json :=
  if x.isFinite then .real (Single.toDouble x) else .null

def ofPattern (p : Single.Pattern) : Json := ofSingle p.value

def ofOption {α : Type} (f : α → Json) : Option α → Json
  | some a => f a
  | none => .null

def ofList {α : Type} (f : α → Json) (xs : List α) : Json := .list (xs.map f)

mutual

/-- The depth of nesting of a value. -/
def height : Json → Nat
  | .list items => heightOfItems items + 1
  | .object members => heightOfMembers members + 1
  | _ => 0

def heightOfItems : List Json → Nat
  | [] => 0
  | j :: js => max j.height (heightOfItems js)

def heightOfMembers : List (String × Json) → Nat
  | [] => 0
  | (_, j) :: ms => max j.height (heightOfMembers ms)

end

def bool? : Json → Option Bool
  | .bool b => some b
  | _ => none

def text? : Json → Option String
  | .text s => some s
  | _ => none

/-- A whole number from `lo` to `hi`. -/
def int? (lo hi : Int) : Json → Option Int
  | .int n => if lo ≤ n && n ≤ hi then some n else none
  | _ => none

def count? (j : Json) : Option Nat := (j.int? 0 18446744073709551615).map Int.toNat

def uint32? (j : Json) : Option UInt32 := (j.int? 0 4294967295).map fun n => n.toNat.toUInt32

def uint16? (j : Json) : Option UInt16 := (j.int? 0 65535).map fun n => n.toNat.toUInt16

def uint8? (j : Json) : Option UInt8 := (j.int? 0 255).map fun n => n.toNat.toUInt8

def int32? (j : Json) : Option Int32 := (j.int? (-2147483648) 2147483647).map Int32.ofInt

def int8? (j : Json) : Option Int8 := (j.int? (-128) 127).map Int8.ofInt

/-- The single nearest to a number. -/
def single? : Json → Option Float32
  | .int n => some (Single.ofInt n)
  | .real x => some (Single.ofDouble x)
  | _ => none

/-- The pattern of the single nearest to a number. -/
def pattern? (j : Json) : Option Single.Pattern := j.single?.map .ofValue

def list? {α : Type} (read : Json → Option α) : Json → Option (List α)
  | .list items => items.mapM read
  | _ => none

def pair? {α : Type} (read : Json → Option α) : Json → Option (α × α)
  | .list [a, b] => do pure (← read a, ← read b)
  | _ => none

/-- The member `name`, which must not occur twice. -/
def member? (name : String) (members : List (String × Json)) : Option (Option Json) :=
  match members.filter fun m => m.1 == name with
  | [] => some none
  | [m] => some (some m.2)
  | _ => none

/-- The fields of a record, each where it is given. A list gives the first ones in order, an object
may have further members. -/
def fields? (names : List String) : Json → Option (List (Option Json))
  | .object members => names.mapM fun name => member? name members
  | .list items =>
    if items.length ≤ names.length then
      some (items.map some ++ List.replicate (names.length - items.length) none)
    else none
  | _ => none

/-- A field that has to be given. -/
def required {α : Type} (read : Json → Option α) : Option Json → Option α
  | some j => read j
  | none => none

/-- A field that is `a` unless it is given. -/
def orElse {α : Type} (a : α) (read : Json → Option α) : Option Json → Option α
  | some j => read j
  | none => some a

/-- A field that may be missing or null. -/
def optional {α : Type} (read : Json → Option α) : Option Json → Option (Option α)
  | none => some none
  | some .null => some none
  | some j => (read j).map some

/-- One of several words, also as the only member of an object with no value. Where `loose` that may
be an empty object. -/
def word? {α : Type} (loose : Bool) (words : List (String × α)) : Json → Option α
  | .text s => words.lookup s
  | .object [(s, .null)] => words.lookup s
  | .object [(s, .object [])] => if loose then words.lookup s else none
  | _ => none

/-- One of several tags. Where `loose` that may be its position. -/
def tag? {α : Type} (loose : Bool) (tags : List (String × α)) : Json → Option α
  | .text s => tags.lookup s
  | .int (.ofNat i) => if loose then tags[i]?.map (·.2) else none
  | _ => none

/-- A record among whose members is a tag that says how to read the others. In a list the tag comes
first. -/
def tagged? {α : Type} (loose : Bool) (tags : List (String × (Json → Option α))) :
    Json → Option α
  | .object members => do
    let tag ← (← member? "type" members)
    let read ← tag? loose tags tag
    read (.object (members.filter fun m => m.1 != "type"))
  | .list (tag :: items) => do
    let read ← tag? loose tags tag
    read (.list items)
  | _ => none

/-- A tag and a value that is read as the tag says. In an object the tag is a word, in a list a tag
that comes first. -/
def tagAndValue? {α : Type} (loose : Bool) (tags : List (String × (Json → Option α))) :
    Json → Option α
  | .object members => do
    let read ← word? loose tags (← (← member? "type" members))
    read (← (← member? "value" members))
  | .list [tag, value] => do
    let read ← tag? loose tags tag
    read value
  | _ => none

theorem int?_int {lo hi n : Int} (h₁ : lo ≤ n) (h₂ : n ≤ hi) :
    (Json.int n).int? lo hi = some n := by
  simp [int?, h₁, h₂]

theorem list?_ofList {α : Type} {f : α → Json} {read : Json → Option α} {xs : List α}
    (h : ∀ x ∈ xs, read (f x) = some x) : (ofList f xs).list? read = some xs := by
  induction xs with
  | nil => rfl
  | cons x xs ih =>
    have ih := ih fun y hy => h y (List.mem_cons_of_mem x hy)
    simp only [ofList, list?, List.map_cons, List.mapM_cons] at *
    rw [h x List.mem_cons_self, ih]
    rfl

end Json

end PoseMachine
