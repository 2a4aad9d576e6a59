/-!
# Fixed words and symbols of SQL

The keywords and symbols that a `SELECT` statement is written with, and their spelling.
-/

namespace SqlSelect

/-- A word with a fixed meaning, always written in capitals. -/
inductive Keyword where
  | select | distinct | from | inner | left | right | full | join | on | as
  | where | group | by | order | limit | offset | asc | desc | nulls | first | last
  | and | or | not | is | null | in | like | ilike | true | false
deriving DecidableEq

/-- The letters of a keyword. -/
def Keyword.spelling : Keyword → String
  | .select => "SELECT"
  | .distinct => "DISTINCT"
  | .from => "FROM"
  | .inner => "INNER"
  | .left => "LEFT"
  | .right => "RIGHT"
  | .full => "FULL"
  | .join => "JOIN"
  | .on => "ON"
  | .as => "AS"
  | .where => "WHERE"
  | .group => "GROUP"
  | .by => "BY"
  | .order => "ORDER"
  | .limit => "LIMIT"
  | .offset => "OFFSET"
  | .asc => "ASC"
  | .desc => "DESC"
  | .nulls => "NULLS"
  | .first => "FIRST"
  | .last => "LAST"
  | .and => "AND"
  | .or => "OR"
  | .not => "NOT"
  | .is => "IS"
  | .null => "NULL"
  | .in => "IN"
  | .like => "LIKE"
  | .ilike => "ILIKE"
  | .true => "TRUE"
  | .false => "FALSE"

/-- A punctuation mark or an operator. -/
inductive Symbol where
  | comma | dot | openParen | closeParen | star
  | plus | minus | slash | percent | concat
  | equal | notEqual | less | lessEqual | greater | greaterEqual
deriving DecidableEq

/-- The characters of a symbol. -/
def Symbol.spelling : Symbol → String
  | .comma => ","
  | .dot => "."
  | .openParen => "("
  | .closeParen => ")"
  | .star => "*"
  | .plus => "+"
  | .minus => "-"
  | .slash => "/"
  | .percent => "%"
  | .concat => "||"
  | .equal => "="
  | .notEqual => "<>"
  | .less => "<"
  | .lessEqual => "<="
  | .greater => ">"
  | .greaterEqual => ">="

end SqlSelect
