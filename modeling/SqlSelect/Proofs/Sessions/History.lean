import SqlSelect.Database.Session
import Mathlib.Data.List.Basic

/-!
# Sessions as histories

A caller of a session sees exchanges: its call, the statements sent for it and the answer. What the
next exchange is follows from the exchanges before and the script of replies alone, and the session
after a run is read off its history (`Session.exchanges_start`). So the kept catalog is no state of
its own: it is what the first successful reading of the catalog answered.
-/

namespace SqlSelect

namespace Session

/-! ## Calls and exchanges -/

/-- What can be asked of a session. -/
inductive Call where
  | run (query : Select)
  | tables
  /-- the catalog, if one is kept -/
  | kept

/-- What a session answers. -/
inductive Answer where
  | rows (reply : Reply)
  | tables (result : Except Fault Catalog)
  | kept (catalog : Option Catalog)

/-- The answer to a call, and the session after it. -/
def take (s : Session) : Call → Answer × Session
  | .run query => (.rows (s.run query).1, (s.run query).2)
  | .tables => (.tables s.tables.1, s.tables.2)
  | .kept => (.kept s.catalog, s)

/-- A call with the statements that are sent for it and its answer. -/
structure Exchange where
  call : Call
  sent : List Statement
  answer : Answer

/-- The exchange of a call. -/
def exchange (s : Session) (call : Call) : Exchange where
  call := call
  sent := (s.take call).2.log.drop s.log.length
  answer := (s.take call).1

/-- The exchanges of calls that are made one after another. -/
def exchanges (s : Session) : List Call → List Exchange
  | [] => []
  | call :: calls => s.exchange call :: (s.take call).2.exchanges calls

/-- The session after calls that are made one after another. -/
def after (s : Session) (calls : List Call) : Session :=
  calls.foldl (fun s call => (s.take call).2) s

end Session

open Session

/-! ## What must come next -/

/-- The catalog that an exchange read with success. -/
def Session.Exchange.catalog? (x : Exchange) : Option Catalog :=
  match x.answer with
  | .tables (.ok c) => some c
  | _ => none

/-- The reply to the statement of a number, counted from zero; a script that is used up reports an
error. -/
def replyAt (replies : List Reply) (n : Nat) : Reply :=
  replies[n]?.getD (.error (.connection "no more replies"))

/-- Exchanges in order. -/
abbrev History := List Exchange

namespace History

/-- The statements sent so far. -/
def sent (h : History) : List Statement := h.flatMap Exchange.sent

/-- The first catalog that was read with success. -/
def catalog? (h : History) : Option Catalog := h.findSome? Exchange.catalog?

/-- The exchange that follows a history. A query is always sent and its reply handed on. The catalog
is asked for only if it was never read before; a failed reply or a row that cannot be read is the
answer. -/
def next (q : Quoting) (replies : List Reply) (h : History) : Call → Exchange
  | .run query => ⟨.run query, [query.statement q], .rows (replyAt replies h.sent.length)⟩
  | .tables =>
    match h.catalog? with
    | some c => ⟨.tables, [], .tables (.ok c)⟩
    | none =>
      ⟨.tables, [catalogQuery.statement q], .tables <|
        match replyAt replies h.sent.length with
        | .ok rows => Catalog.ofRows rows
        | .error fault => .error fault⟩
  | .kept => ⟨.kept, [], .kept h.catalog?⟩

/-- A history, continued by calls. -/
def continued (q : Quoting) (replies : List Reply) (h : History) (calls : List Call) : History :=
  calls.foldl (fun h call => h ++ [h.next q replies call]) h

/-- The session that a history leads to. -/
def session (settings : Settings) (replies : List Reply) (h : History) : Session where
  settings := settings
  replies := replies.drop h.sent.length
  log := h.sent
  catalog := h.catalog?

theorem sent_append_singleton (h : History) (x : Exchange) :
    sent (h ++ [x]) = h.sent ++ x.sent := by
  rw [sent, List.flatMap_append, List.flatMap_singleton]
  rfl

theorem catalog?_append (h h' : History) : catalog? (h ++ h') = h.catalog?.or h'.catalog? :=
  List.findSome?_append

theorem catalog?_singleton (x : Exchange) : catalog? [x] = x.catalog? := by
  rw [catalog?, List.findSome?_singleton]

/-- A history is only ever extended. -/
theorem exists_continued_eq_append (q : Quoting) (replies : List Reply) (h : History)
    (calls : List Call) : ∃ h', h.continued q replies calls = h ++ h' := by
  induction calls generalizing h with
  | nil => exact ⟨[], (List.append_nil h).symm⟩
  | cons call calls ih =>
    obtain ⟨h', hcontinued⟩ := ih (h ++ [h.next q replies call])
    exact ⟨h.next q replies call :: h', by rw [continued, List.foldl_cons, ← continued, hcontinued,
      List.append_assoc, List.singleton_append]⟩

end History

/-! ## A session does what must come next -/

namespace Session

theorem nextReply_drop (s : Session) {replies : List Reply} {n : Nat}
    (h : s.replies = replies.drop n) : s.nextReply = replyAt replies n := by
  rw [nextReply, h, replyAt, ← List.head?_drop]
  cases replies.drop n <;> rfl

theorem catalogOfReply_eq (reply : Reply) :
    catalogOfReply reply = match reply with
      | .ok rows => Catalog.ofRows rows
      | .error fault => .error fault := by
  cases reply <;> rfl

/-- Running a query neither looks at the kept catalog nor changes it. -/
theorem run_withCatalog (s : Session) (query : Select) (c : Option Catalog) :
    ({ s with catalog := c } : Session).run query =
      ((s.run query).1, { (s.run query).2 with catalog := c }) := rfl

variable (settings : Settings) (replies : List Reply)

/-- A query in a session that a history leads to. -/
theorem run_session (h : History) (query : Select) :
    (h.session settings replies).run query =
      (replyAt replies h.sent.length,
        ⟨settings, replies.drop (h.sent.length + 1), h.sent ++ [query.statement settings.quoting],
          h.catalog?⟩) := by
  have hreply : ((h.session settings replies).send (query.statement settings.quoting)).nextReply =
      replyAt replies h.sent.length := nextReply_drop _ rfl
  have hreplies : (replies.drop h.sent.length).tail = replies.drop (h.sent.length + 1) :=
    List.tail_drop
  rw [← hreply, ← hreplies]
  rfl

/-- The catalog in a session that a history leads to, if it was read before. -/
theorem tables_session_of_some {h : History} {c : Catalog} (hc : h.catalog? = some c) :
    (h.session settings replies).tables = (.ok c, h.session settings replies) := by
  have hkept : (h.session settings replies).catalog = some c := hc
  rw [tables, hkept]

/-- The catalog in a session that a history leads to, if it was never read before. -/
theorem tables_session_of_none {h : History} (hc : h.catalog? = none) :
    let result := catalogOfReply (replyAt replies h.sent.length)
    (h.session settings replies).tables =
      (result, ⟨settings, replies.drop (h.sent.length + 1),
        h.sent ++ [catalogQuery.statement settings.quoting], result.toOption⟩) := by
  have hkept : (h.session settings replies).catalog = none := hc
  rw [tables, hkept]
  simp only [run_session, hc]
  cases catalogOfReply (replyAt replies h.sent.length) <;> rfl

/-- One call: the session answers with what must come next, and the history that is longer by this
exchange leads to the session after it. -/
theorem take_session (h : History) (call : Call) :
    (h.session settings replies).exchange call = h.next settings.quoting replies call ∧
    ((h.session settings replies).take call).2 =
      History.session settings replies (h ++ [h.next settings.quoting replies call]) := by
  cases call with
  | run query =>
    rw [exchange, take, run_session]
    simp only [History.next, History.session, History.sent_append_singleton,
      History.catalog?_append, History.catalog?_singleton, Exchange.catalog?, List.drop_left,
      Option.or_none, List.length_append, List.length_singleton, and_self]
  | tables =>
    cases hc : h.catalog? with
    | some c =>
      rw [exchange, take, tables_session_of_some settings replies hc]
      simp only [History.next, hc, History.session, History.sent_append_singleton,
        History.catalog?_append, List.drop_length, List.append_nil, Option.some_or, and_self]
    | none =>
      rw [exchange, take, tables_session_of_none settings replies hc]
      simp only [History.next, hc, History.session, History.sent_append_singleton,
        History.catalog?_append, History.catalog?_singleton, Option.none_or, List.drop_left,
        List.length_append, List.length_singleton, ← catalogOfReply_eq, Exchange.catalog?, true_and]
      cases catalogOfReply (replyAt replies h.sent.length) <;> rfl
  | kept =>
    simp only [exchange, take, History.next, History.session, History.sent_append_singleton,
      History.catalog?_append, History.catalog?_singleton, Exchange.catalog?, List.drop_length,
      List.append_nil, Option.or_none, and_self]

/-- Many calls: the session goes on as the history must. -/
theorem exchanges_session (h : History) (calls : List Call) :
    h ++ (h.session settings replies).exchanges calls =
      h.continued settings.quoting replies calls ∧
    (h.session settings replies).after calls =
      History.session settings replies (h.continued settings.quoting replies calls) := by
  induction calls generalizing h with
  | nil => exact ⟨List.append_nil h, rfl⟩
  | cons call calls ih =>
    obtain ⟨hexchange, hsession⟩ := take_session settings replies h call
    have hrest := ih (h ++ [h.next settings.quoting replies call])
    rw [exchanges, after, List.foldl_cons, hexchange, hsession, ← after, History.continued,
      List.foldl_cons, ← History.continued, List.append_cons]
    exact hrest

/-- The catalog query, written. -/
theorem statement_catalogQuery (q : Quoting) :
    catalogQuery.statement q =
      ⟨"SELECT " ++ q.quote "oid" ++ ", " ++ q.quote "relname" ++ " FROM " ++ q.quote "pg_class",
        []⟩ := by
  have htext : (catalogQuery.statement q).text =
      "SELECT " ++ q.quote "oid" ++ ", " ++ q.quote "relname" ++ " FROM " ++
        q.quote "pg_class" := by
    cases q <;> decide +kernel
  rw [← htext]
  rfl

/-- The catalog is answered if it was read before, or else if the next reply holds rows that can be
read. -/
theorem next_tables_ok_iff (q : Quoting) (h : History) :
    (∃ c, (h.next q replies .tables).answer = .tables (.ok c)) ↔
      (∃ c, h.catalog? = some c) ∨
        ∃ rows c, replyAt replies h.sent.length = .ok rows ∧ Catalog.ofRows rows = .ok c := by
  cases hc : h.catalog? with
  | some kept => simp [History.next, hc]
  | none =>
    rcases hreply : replyAt replies h.sent.length with fault | rows
    · simp [History.next, hc, hreply]
    · simp [History.next, hc, hreply]

/-- A run of calls is what the specification of its history says, exchange by exchange, and the
session after it is read off the history: what was sent, the replies that are left, and the first
catalog that was read. A catalog that was read is kept for all that follows. Reading it succeeds if
it was read before or the reply can be read, and running a query does not depend on it. -/
theorem exchanges_start (calls : List Call) :
    let s := start settings replies
    let h : History := s.exchanges calls
    let q := settings.quoting
    h = History.continued q replies [] calls ∧
    s.after calls = ⟨settings, replies.drop h.sent.length, h.sent, h.catalog?⟩ ∧
    (∀ c more, h.catalog? = some c → (s.after (calls ++ more)).catalog = some c) ∧
    ((∃ c, (h.next q replies .tables).answer = .tables (.ok c)) ↔
      (∃ c, h.catalog? = some c) ∨
        ∃ rows c, replyAt replies h.sent.length = .ok rows ∧ Catalog.ofRows rows = .ok c) ∧
    (∀ query c, ({ s.after calls with catalog := c } : Session).run query =
      (((s.after calls).run query).1, { ((s.after calls).run query).2 with catalog := c })) ∧
    catalogQuery.statement q =
      ⟨"SELECT " ++ q.quote "oid" ++ ", " ++ q.quote "relname" ++ " FROM " ++ q.quote "pg_class",
        []⟩ := by
  intro s h q
  -- a session that has sent nothing is the one that the empty history leads to
  have hrun : ∀ calls, s.exchanges calls = History.continued q replies [] calls ∧
      s.after calls = History.session settings replies (History.continued q replies [] calls) :=
    exchanges_session settings replies []
  have hh : h = History.continued q replies [] calls := (hrun calls).1
  refine ⟨hh, ?_, fun c more hc => ?_, next_tables_ok_iff replies q h,
    fun query c => run_withCatalog _ query c, statement_catalogQuery q⟩
  · rw [hh]
    exact (hrun calls).2
  · obtain ⟨h', hmore⟩ := History.exists_continued_eq_append q replies h more
    have hall : History.continued q replies [] (calls ++ more) = h ++ h' := by
      rw [← hmore, hh]
      exact List.foldl_append
    rw [(hrun (calls ++ more)).2, hall]
    show History.catalog? (h ++ h') = some c
    rw [History.catalog?_append, hc, Option.some_or]

end Session

end SqlSelect
