import SqlSelect.Database.Session

/-!
# Many callers, one catalog

Callers who ask a session for its catalog at the same time share one reading of it. The catalog is
kept in a cell that is filled once, and the cell decides who may fill it (`OnceCell`): one caller at
a time, in the order in which they came. If the fetch succeeds they all get its catalog; if it
fails, only the caller who fetched gets the fault and the next one in line fetches.
-/

namespace SqlSelect

/-- Callers of a session's catalog, named by numbers. `waiting` is in the order in which they came,
`finished` lists the results so far. -/
structure SharedFetch where
  session : Session
  fetching : Option Nat
  waiting : List Nat
  finished : List (Nat × Except Fault Catalog)

/-- What a cell that is filled once does about those who wait at it. -/
structure OnceCell where
  /-- whether it lets a caller fill it -/
  starts : SharedFetch → Nat → Bool
  /-- Only one caller fills it at a time. -/
  alone {f caller} : starts f caller = true → f.fetching = none
  /-- It is not filled again. -/
  unset {f caller} : starts f caller = true → f.session.catalog = none
  /-- Callers have their turns in the order in which they came. -/
  inOrder {f caller} : starts f caller = true → f.waiting.head? = some caller
  /-- One who fails makes room for the next. -/
  passesOn {f caller} : f.fetching = none → f.session.catalog = none →
    f.waiting.head? = some caller → starts f caller = true

/-- The cell that decides by these rules and nothing else. -/
def OnceCell.plain : OnceCell where
  starts f caller :=
    f.fetching.isNone && f.session.catalog.isNone && f.waiting.head? == some caller
  alone h := by simp_all
  unset h := by simp_all
  inOrder h := by simp_all
  passesOn := by simp_all

namespace SharedFetch

/-- A session without callers. -/
def idle (session : Session) : SharedFetch :=
  ⟨session, none, [], []⟩

/-- A caller arrives. -/
def arrive (f : SharedFetch) (caller : Nat) : SharedFetch :=
  { f with waiting := f.waiting ++ [caller] }

/-- A caller that waited sends the catalog query. -/
def fetch (f : SharedFetch) (caller : Nat) : SharedFetch :=
  { f with
    session := f.session.send (f.session.statementOf Session.catalogQuery)
    fetching := some caller
    waiting := f.waiting.erase caller }

/-- The reply to the query in flight arrives, if there is one. -/
def answer (f : SharedFetch) : SharedFetch :=
  match f.fetching with
  | none => f
  | some caller =>
    let result := Session.catalogOfReply f.session.nextReply
    { f with
      session := f.session.receive.keep result
      fetching := none
      finished := f.finished ++ [(caller, result)] }

/-- A caller that waited takes the catalog, if one is kept. -/
def serve (f : SharedFetch) (caller : Nat) : SharedFetch :=
  match f.session.catalog with
  | none => f
  | some c =>
    if caller ∈ f.waiting then
      { f with
        waiting := f.waiting.erase caller
        finished := f.finished ++ [(caller, .ok c)] }
    else f

/-- What can happen to the callers of a session. -/
inductive Event where
  | arrive (caller : Nat)
  | fetch (caller : Nat)
  | answer
  | serve (caller : Nat)

/-- The state after an event. A caller fetches only if the cell lets it. -/
def happen (cell : OnceCell) (f : SharedFetch) : Event → SharedFetch
  | .arrive caller => f.arrive caller
  | .fetch caller => if cell.starts f caller then f.fetch caller else f
  | .answer => f.answer
  | .serve caller => f.serve caller

/-- The state after events. -/
def happenAll (cell : OnceCell) (f : SharedFetch) (events : List Event) : SharedFetch :=
  events.foldl (happen cell) f

/-- A caller that waits is served, or else it fetches. -/
def turn (caller : Nat) : List Event :=
  [.serve caller, .fetch caller, .answer]

/-- Callers all come, and then each has its turn. -/
def schedule (callers : List Nat) : List Event :=
  callers.map .arrive ++ callers.flatMap turn

/-- The state after `n` callers came one after the other and all were served. -/
def together (session : Session) (n : Nat) : SharedFetch :=
  (idle session).happenAll .plain (schedule (List.range n))

/-- The result of a caller. -/
def result? (f : SharedFetch) (caller : Nat) : Option (Except Fault Catalog) :=
  f.finished.lookup caller

end SharedFetch

end SqlSelect
