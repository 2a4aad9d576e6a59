import SqlSelect.Database.Catalog
import SqlSelect.Settings
import SqlSelect.Sql.Spelling

/-!
# Sessions

A session sends statements over a connection and takes the replies in order. It reads the table
catalog when it is first asked for and keeps it; a failed attempt keeps nothing, so that the next
one asks again.
-/

namespace SqlSelect

/-- The answer to a statement. -/
abbrev Reply := Except Fault (List Row)

/-- A session. `replies` are those still to come, `log` is what was sent so far. -/
structure Session where
  settings : Settings
  replies : List Reply
  log : List Statement
  catalog : Option Catalog

namespace Session

/-- A session that has sent nothing. -/
def start (settings : Settings) (replies : List Reply) : Session :=
  ⟨settings, replies, [], none⟩

/-- Send a statement. -/
def send (s : Session) (statement : Statement) : Session :=
  { s with log := s.log ++ [statement] }

/-- The next reply; a connection that has none left reports an error. -/
def nextReply (s : Session) : Reply :=
  match s.replies with
  | reply :: _ => reply
  | [] => .error (.connection "no more replies")

/-- The session after its next reply. -/
def receive (s : Session) : Session :=
  { s with replies := s.replies.tail }

/-- The statement that a query becomes under the session's settings. -/
def statementOf (s : Session) (query : Select) : Statement :=
  query.statement s.settings.quoting

/-- Send a query and take its reply. -/
def run (s : Session) (query : Select) : Reply × Session :=
  let sent := s.send (s.statementOf query)
  (sent.nextReply, sent.receive)

/-- The query for the identifiers and names of all tables. -/
def catalogQuery : Select :=
  (Select.empty.project [Projection.ofString "oid", Projection.ofString "relname"]).fromTable
    (TableRef.ofString "pg_class")

/-- The catalog that a reply to the catalog query gives. -/
def catalogOfReply (reply : Reply) : Except Fault Catalog :=
  reply.bind Catalog.ofRows

/-- Keep a catalog that was read; a fault leaves all as it is. -/
def keep (s : Session) : Except Fault Catalog → Session
  | .ok c => { s with catalog := some c }
  | .error _ => s

/-- The catalog: the one kept, or else read anew. -/
def tables (s : Session) : Except Fault Catalog × Session :=
  match s.catalog with
  | some c => (.ok c, s)
  | none =>
    let (reply, after) := s.run catalogQuery
    (catalogOfReply reply, after.keep (catalogOfReply reply))

end Session

end SqlSelect
