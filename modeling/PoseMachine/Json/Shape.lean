import PoseMachine.Json.Scan

/-!
Reading a text against the shape of the value expected in it. A text is read once from left to
right, and the first error met on the way counts.
-/

namespace PoseMachine.Json

/-- Whether a field of a record may be left out, or null. -/
inductive Presence where
  | required
  | defaulted
  | optional
deriving DecidableEq, Repr

/-- What a text is read for. -/
inductive Shape where
  /-- A token that is accepted as it stands. -/
  | token (accepts : Json → Bool)
  | word (words : List String)
  | list (item : Shape)
  | record (fields : List (String × Presence × Shape))
  /-- A tag and a value that is accepted as the tag says. The tag of an object is a word. -/
  | tagAndValue (tags : List (String × (Json → Bool)))
  /-- A record with a tag. All but the tag is collected and accepted as a whole. -/
  | tagged (tags : List String) (accepts : Json → Bool)
  /-- An object with one field of its own. All else is collected and accepted as a whole. -/
  | extended (field : String) (accepts : Json → Bool) (acceptsAll : Json → Bool)

namespace Shape

/-- The number of levels that a text may be nested. -/
def depthLimit : Nat := 128

abbrev Checked := Except ReadError Unit

def ensure (c : Bool) : Checked := if c then .ok () else .error .mismatch

/-- The end of a list or an object. -/
def close : Option ReadError → Checked
  | none => .ok ()
  | some e => .error e

/-- The levels left inside a list or an object. -/
def enter (levels : Nat) : Except ReadError Nat :=
  if levels ≤ 1 then .error .malformed else .ok (levels - 1)

def keyText : Key → Except ReadError String
  | .name s => .ok s
  | .unpaired => .error .malformed
  | .broken d => .error d.used

mutual

def skip : Scan → Checked
  | .broken d => .error d.skipped
  | .list items stop => do
    skipItems items
    close stop
  | .object members stop => do
    skipMembers members
    close stop
  | _ => .ok ()

def skipItems : List Scan → Checked
  | [] => .ok ()
  | s :: ss => do
    skip s
    skipItems ss

def skipMembers : List (Key × Scan) → Checked
  | [] => .ok ()
  | (.broken d, _) :: _ => .error d.skipped
  | (_, s) :: ms => do
    skip s
    skipMembers ms

end

mutual

/-- Collects a value with `levels` levels left. -/
def collect (levels : Nat) : Scan → Checked
  | .broken d => .error d.used
  | .huge => .error .malformed
  | .unpaired => .error .malformed
  | .list items stop => do
    collectItems (← enter levels) items
    close stop
  | .object members stop => do
    collectMembers (← enter levels) members
    close stop
  | _ => .ok ()

def collectItems (levels : Nat) : List Scan → Checked
  | [] => .ok ()
  | s :: ss => do
    collect levels s
    collectItems levels ss

def collectMembers (levels : Nat) : List (Key × Scan) → Checked
  | [] => .ok ()
  | (k, s) :: ms => do
    let _ ← keyText k
    collect levels s
    collectMembers levels ms

end

def checkToken (accepts : Json → Bool) (s : Scan) : Checked :=
  match s with
  | .list _ _ => .error .mismatch
  | .object _ _ => .error .mismatch
  | .broken d => .error d.used
  | .huge => .error .malformed
  | .unpaired => .error .malformed
  | s => ensure (accepts s.toJson)

def checkTag (tags : List String) (s : Scan) : Checked :=
  checkToken (fun j => j.text?.any tags.contains) s

/-- One of several words, which may be the only member of an object with a null. -/
def checkWord (levels : Nat) (words : List String) : Scan → Checked
  | .text s => ensure (words.contains s)
  | .unpaired => .error .malformed
  | .broken d => .error d.asWord
  | .object members stop => do
    let _ ← enter levels
    match members, stop with
    | [], none => .error .malformed
    | [], some e => .error e
    | (k, s) :: rest, stop =>
      let name ← keyText k
      ensure (words.contains name)
      match s with
      | .null => if rest.isEmpty then close stop else .error .malformed
      | s => .error s.misused
  | _ => .error .malformed

/-- What a word accepts. -/
def acceptsFor (words : List (String × (Json → Bool))) (word : Scan) : Json → Bool :=
  (word.toJson.word? false words).getD fun _ => false

/-- The members of a tagged record from one on. `seen` says whether there was a tag. -/
def checkTagged (levels : Nat) (tags : List String) (seen : Bool) : List (Key × Scan) → Checked
  | [] => .ok ()
  | (k, s) :: ms => do
    let name ← keyText k
    if name = "type" then
      ensure !seen
      checkTag tags s
      checkTagged levels tags true ms
    else
      collect levels s
      checkTagged levels tags seen ms

/-- The members of a tag and its value from one on. `tag` is what the tag accepts, once it is
known, and `value` is a value that came before the tag or has been accepted. -/
def checkPair (levels : Nat) (tags : List (String × (Json → Bool))) (tag : Option (Json → Bool))
    (value : Option Json) : List (Key × Scan) → Option ReadError → Checked
  | [], stop => do
    close stop
    ensure (tag.isSome && value.isSome)
  | (k, s) :: ms, stop => do
    let name ← keyText k
    if name = "type" then
      ensure tag.isNone
      checkWord levels (tags.map (·.1)) s
      let accepts := acceptsFor tags s
      ensure (value.all accepts)
      checkPair levels tags (some accepts) value ms stop
    else if name = "value" then
      ensure value.isNone
      match tag with
      | some accepts => checkToken accepts s
      | none => collect levels s
      checkPair levels tags tag (some s.toJson) ms stop
    else
      skip s
      checkPair levels tags tag value ms stop

/-- The members of an object with one field of its own from one on. -/
def checkExtended (levels : Nat) (field : String) (accepts : Json → Bool) (seen : Bool) :
    List (Key × Scan) → Checked
  | [] => .ok ()
  | (k, s) :: ms => do
    let name ← keyText k
    if name = field then
      ensure !seen
      checkToken accepts s
      checkExtended levels field accepts true ms
    else
      collect levels s
      checkExtended levels field accepts seen ms

mutual

/-- Reads a value for a shape with `levels` levels left. -/
def check (levels : Nat) : Shape → Scan → Checked
  | .token accepts, s => checkToken accepts s
  | .word words, s => checkWord levels words s
  | .list item, .list items stop => do
    checkItems (← enter levels) item items
    close stop
  | .record fields, .list items stop => do
    checkInOrder (← enter levels) fields items stop
  | .record fields, .object members stop => do
    checkFields (← enter levels) fields [] members stop
  | .tagAndValue tags, .object members stop => do
    checkPair (← enter levels) tags none none members stop
  | .tagAndValue tags, .list items stop => do
    let _ ← enter levels
    match items, stop with
    | [], stop => do
      close stop
      .error .mismatch
    | [tag], stop => do
      checkTag (tags.map (·.1)) tag
      close stop
      .error .mismatch
    | tag :: value :: rest, stop => do
      checkTag (tags.map (·.1)) tag
      checkToken (acceptsFor tags tag) value
      if rest.isEmpty then close stop else .error .malformed
  | .tagged tags accepts, .object members stop => do
    checkTagged (← enter levels) tags false members
    close stop
    ensure (accepts (Scan.object members stop).toJson)
  | .tagged tags accepts, .list items stop => do
    let levels ← enter levels
    match items with
    | [] => close stop
    | tag :: rest => do
      checkTag tags tag
      collectItems levels rest
      close stop
    ensure (accepts (Scan.list items stop).toJson)
  | .extended field accepts acceptsAll, .object members stop => do
    checkExtended (← enter levels) field accepts false members
    close stop
    ensure (acceptsAll (Scan.object members stop).toJson)
  | _, s => .error s.misused

def checkItems (levels : Nat) (item : Shape) : List Scan → Checked
  | [] => .ok ()
  | s :: ss => do
    check levels item s
    checkItems levels item ss

/-- Reads the fields of a record in order. -/
def checkInOrder (levels : Nat) :
    List (String × Presence × Shape) → List Scan → Option ReadError → Checked
  | [], [], stop => close stop
  | [], _ :: _, _ => .error .malformed
  | f :: fs, [], stop => do
    close stop
    ensure ((f :: fs).all fun f => f.2.1 != .required)
  | (_, presence, shape) :: fs, s :: ss, stop => do
    match presence, s with
    | .optional, .null => pure ()
    | _, s => check levels shape s
    checkInOrder levels fs ss stop

/-- Reads the fields of a record by name. Members of other names are passed over. -/
def checkFields (levels : Nat) (fields : List (String × Presence × Shape)) (seen : List String) :
    List (Key × Scan) → Option ReadError → Checked
  | [], stop => do
    close stop
    ensure (fields.all fun f => f.2.1 != .required || seen.contains f.1)
  | (k, s) :: ms, stop => do
    let name ← keyText k
    match fields.find? fun f => f.1 == name with
    | none => do
      skip s
      checkFields levels fields seen ms stop
    | some (_, presence, shape) => do
      ensure !(seen.contains name)
      match presence, s with
      | .optional, .null => pure ()
      | _, s => check levels shape s
      checkFields levels fields (name :: seen) ms stop

end

end Shape

end PoseMachine.Json
