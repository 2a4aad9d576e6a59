/-!
# Quoting of names

PostgreSQL reads a bare name as a word of lower-case letters, digits, `_` and `$` that is not
reserved. Every other name is put in double quotes, with its own quotes doubled. A quoting strategy
says which names are written bare.
-/

namespace SqlSelect

/-- When names are quoted. -/
inductive Quoting where
  /-- names that PostgreSQL would fold or refuse -/
  | whenNeeded
  /-- every name -/
  | always
  /-- no name -/
  | never
deriving DecidableEq

/-- Words that cannot stand as a bare column or table name. -/
def reservedWords : List String :=
  ["all", "analyse", "analyze", "and", "any", "array", "as", "asc", "asymmetric", "authorization",
   "between", "binary", "both", "case", "cast", "check", "collate", "column", "concurrently",
   "constraint", "create", "cross", "current_catalog", "current_date", "current_role",
   "current_schema", "current_time", "current_timestamp", "current_user", "default", "deferrable",
   "desc", "distinct", "do", "else", "end", "except", "false", "fetch", "for", "foreign",
   "freeze", "from", "full", "grant", "group", "having", "ilike", "in", "initially", "inner",
   "intersect", "into", "is", "isnull", "join", "lateral", "leading", "left", "like", "limit",
   "localtime", "localtimestamp", "natural", "not", "notnull", "null", "offset", "on", "only",
   "or", "order", "outer", "overlaps", "placing", "primary", "references", "returning", "right",
   "select", "session_user", "similar", "some", "symmetric", "system_user", "table",
   "tablesample", "then", "to", "trailing", "true", "union", "unique", "user", "using",
   "variadic", "verbose", "when", "where", "window", "with"]

/-- A character that may start a bare name. -/
def isPlainStart (c : Char) : Bool :=
  c.isLower || c == '_'

/-- A character that may continue a bare name. -/
def isPlainPart (c : Char) : Bool :=
  isPlainStart c || c.isDigit || c == '$'

/-- Whether a name has the form of a bare name. -/
def isPlainName (name : List Char) : Bool :=
  match name with
  | [] => false
  | c :: rest => isPlainStart c && rest.all isPlainPart

/-- Whether a name can be written bare. -/
def isBareName (name : String) : Bool :=
  isPlainName name.toList && !reservedWords.contains name

/-- A character inside double quotes. -/
def quotedChar (c : Char) : List Char :=
  if c = '"' then ['"', '"'] else [c]

/-- A name in double quotes. -/
def quotedName (name : String) : List Char :=
  '"' :: (name.toList.flatMap quotedChar ++ ['"'])

namespace Quoting

/-- Whether a strategy puts a name in quotes. -/
def quotes (q : Quoting) (name : String) : Bool :=
  match q with
  | .whenNeeded => !isBareName name
  | .always => true
  | .never => false

/-- The characters of a name under a strategy. -/
def nameChars (q : Quoting) (name : String) : List Char :=
  if q.quotes name then quotedName name else name.toList

/-- A name under a strategy. -/
def quote (q : Quoting) (name : String) : String :=
  String.ofList (q.nameChars name)

/-- The name of a strategy. -/
def name : Quoting → String
  | .whenNeeded => "WhenNeeded"
  | .always => "Always"
  | .never => "Never"

/-- The strategy of a name; case matters. -/
def ofName? : String → Option Quoting
  | "WhenNeeded" => some .whenNeeded
  | "Always" => some .always
  | "Never" => some .never
  | _ => none

theorem ofName?_name (q : Quoting) : ofName? q.name = some q := by
  cases q <;> rfl

theorem toList_quote (q : Quoting) (name : String) : (q.quote name).toList = q.nameChars name :=
  String.toList_ofList

example : whenNeeded.quote "user_id" = "user_id" := by decide +kernel

example : whenNeeded.quote "user" = "\"user\"" := by decide +kernel

example : always.quote "a\"b" = "\"a\"\"b\"" := by decide +kernel

end Quoting

end SqlSelect
