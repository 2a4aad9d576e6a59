import SqlSelect.Json.Token

/-!
# JSON syntax trees

`Tree.ofTokens?` builds the tree of a token list with a stack of open containers, one token at a
time; `Tree.parse?` does so for a text. A tree keeps what the text says: repeated keys, numerals as
written, and strings by their units. No nesting is too deep for it.
-/

namespace SqlSelect.Json

/-- What a JSON text says, before strings and numerals are given a meaning. -/
inductive Tree where
  | null
  | bool (b : Bool)
  | number (n : Numeral)
  | string (units : List StringUnit)
  | array (items : List Tree)
  | object (members : List (List StringUnit × Tree))

namespace Tree

/-- A container that is not closed yet, with what it holds so far, the last first. An object waits
for the value of `key`. -/
inductive Opened where
  | array (items : List Tree)
  | object (members : List (List StringUnit × Tree)) (key : List StringUnit)

/-- What may come next. `outer` holds the containers around it, the innermost first. -/
inductive State where
  /-- a value -/
  | value (outer : List Opened)
  /-- a first item or the end of an array -/
  | firstItem (outer : List Opened)
  /-- a first member or the end of an object -/
  | firstMember (outer : List Opened)
  /-- another member of an object -/
  | member (members : List (List StringUnit × Tree)) (outer : List Opened)
  /-- the colon behind a key -/
  | colon (members : List (List StringUnit × Tree)) (key : List StringUnit) (outer : List Opened)
  /-- a comma or the end of the innermost container, behind a finished value -/
  | finished (t : Tree) (outer : List Opened)

/-- Take the first token of a value. -/
def begin? (outer : List Opened) : Token → Option State
  | .null => some (.finished .null outer)
  | .bool b => some (.finished (.bool b) outer)
  | .number n => some (.finished (.number n) outer)
  | .string units => some (.finished (.string units) outer)
  | .openBracket => some (.firstItem outer)
  | .openBrace => some (.firstMember outer)
  | _ => none

/-- Take one token. -/
def step? : State → Token → Option State
  | .value outer, t => begin? outer t
  | .firstItem outer, .closeBracket => some (.finished (.array []) outer)
  | .firstItem outer, t => begin? (.array [] :: outer) t
  | .firstMember outer, .closeBrace => some (.finished (.object []) outer)
  | .firstMember outer, .string key => some (.colon [] key outer)
  | .member members outer, .string key => some (.colon members key outer)
  | .colon members key outer, .colon => some (.value (.object members key :: outer))
  | .finished t (.array items :: outer), .comma => some (.value (.array (t :: items) :: outer))
  | .finished t (.array items :: outer), .closeBracket =>
    some (.finished (.array (t :: items).reverse) outer)
  | .finished t (.object members key :: outer), .comma =>
    some (.member ((key, t) :: members) outer)
  | .finished t (.object members key :: outer), .closeBrace =>
    some (.finished (.object ((key, t) :: members).reverse) outer)
  | _, _ => none

/-- Take a list of tokens. -/
def run? (s : State) : List Token → Option State
  | [] => some s
  | t :: rest => (step? s t).bind (run? · rest)

/-- The tree that a list of tokens spells, if it spells exactly one. -/
def ofTokens? (tokens : List Token) : Option Tree :=
  match run? (.value []) tokens with
  | some (.finished t []) => some t
  | _ => none

/-- The tree of a text. -/
def parse? (text : String) : Option Tree :=
  (tokens? text.toList).bind ofTokens?

theorem run?_append (s : State) (front back : List Token) :
    run? s (front ++ back) = (run? s front).bind (run? · back) := by
  induction front generalizing s with
  | nil => rfl
  | cons t rest ih =>
    cases h : step? s t with
    | none => simp [run?, h]
    | some s' => simp [run?, h, ih]

end Tree

end SqlSelect.Json
