import SqlSelect.Database.SharedFetch
import SqlSelect.Proofs.Sessions.History
import Mathlib.Data.List.Induction
import Mathlib.Data.List.Nodup
import Mathlib.Data.List.Perm.Basic

/-!
# Sharing one fetch

Whatever the order of events, callers who share a fetch pass through three phases (`Phase`): every
fetch so far failed and none is in flight, one more fetch is in flight, or the last one succeeded
and its catalog is kept. All that is said of the callers' results, the queries and the kept catalog
is read off the phase (`Shared`). When all callers have finished they are where they would be had
they asked one after another (`Session.inTurn`).
-/

namespace SqlSelect

namespace Session

variable {s : Session}

/-! ## Asking one after another -/

/-- Callers ask for the catalog one after another: the result of each, and the session after them.
-/
def inTurn (s : Session) : List Nat → List (Nat × Except Fault Catalog) × Session
  | [] => ([], s)
  | caller :: callers =>
    ((caller, s.tables.1) :: (s.tables.2.inTurn callers).1, (s.tables.2.inTurn callers).2)

theorem inTurn_append (s : Session) (callers more : List Nat) :
    s.inTurn (callers ++ more) =
      ((s.inTurn callers).1 ++ ((s.inTurn callers).2.inTurn more).1,
        ((s.inTurn callers).2.inTurn more).2) := by
  induction callers generalizing s with
  | nil => rfl
  | cons caller callers ih => simp only [List.cons_append, inTurn, ih]

theorem tables_of_some {c : Catalog} (hc : s.catalog = some c) : s.tables = (.ok c, s) := by
  rw [tables, hc]

/-- A catalog that is kept is everyone's. -/
theorem inTurn_of_some {c : Catalog} (hc : s.catalog = some c) (callers : List Nat) :
    s.inTurn callers = (callers.map fun caller => (caller, .ok c), s) := by
  induction callers with
  | nil => rfl
  | cons caller callers ih => simp only [inTurn, tables_of_some hc, ih, List.map_cons]

/-! ## Attempts to read the catalog -/

/-- What the catalog query gives whose reply is the one of number `i`, counted from zero. -/
def attempt (s : Session) (i : Nat) : Except Fault Catalog :=
  catalogOfReply (replyAt s.replies i)

/-- The results of callers who each make an attempt. -/
def attempts (s : Session) (callers : List Nat) : List (Nat × Except Fault Catalog) :=
  callers.zipIdx.map fun (caller, i) => (caller, s.attempt i)

/-- The first `n` attempts give faults. -/
def Faulty (s : Session) (n : Nat) : Prop :=
  ∀ i < n, ∃ fault, s.attempt i = .error fault

/-- The session after `n` attempts that gave faults. -/
def afterFaults (s : Session) (n : Nat) : Session :=
  { s with
    replies := s.replies.drop n
    log := s.log ++ List.replicate n (s.statementOf catalogQuery) }

theorem afterFaults_zero (s : Session) : s.afterFaults 0 = s := by
  simp [afterFaults]

theorem attempts_append_singleton (s : Session) (callers : List Nat) (caller : Nat) :
    s.attempts (callers ++ [caller]) =
      s.attempts callers ++ [(caller, s.attempt callers.length)] := by
  simp [attempts, List.zipIdx_append]

theorem map_fst_attempts (s : Session) (callers : List Nat) :
    (s.attempts callers).map Prod.fst = callers := by
  rw [attempts, List.map_map]
  exact List.zipIdx_map_fst 0 callers

theorem mem_attempts {callers : List Nat} {caller : Nat} {result : Except Fault Catalog} :
    (caller, result) ∈ s.attempts callers ↔
      ∃ i, callers[i]? = some caller ∧ s.attempt i = result := by
  simp [attempts, List.mem_zipIdx_iff_getElem?]

theorem Faulty.succ {n : Nat} {fault : Fault} (h : s.Faulty n) (hn : s.attempt n = .error fault) :
    s.Faulty (n + 1) := fun i hi => by
  rcases Nat.lt_succ_iff_lt_or_eq.1 hi with hi | rfl
  · exact h i hi
  · exact ⟨fault, hn⟩

theorem Faulty.attempt_ne_ok {n i : Nat} (h : s.Faulty n) (hi : i < n) {c : Catalog} :
    s.attempt i ≠ .ok c := fun hread => by
  obtain ⟨fault, hfault⟩ := h i hi
  cases hfault.symm.trans hread

theorem Faulty.countP_attempts {callers : List Nat} (h : s.Faulty callers.length) :
    ((s.attempts callers).countP fun entry => !entry.2.isOk) = callers.length := by
  have hlength : (s.attempts callers).length = callers.length := by simp [attempts]
  rw [← hlength]
  refine List.countP_eq_length.2 fun (caller, result) hentry => ?_
  obtain ⟨i, hi, rfl⟩ := mem_attempts.1 hentry
  obtain ⟨fault, hfault⟩ := h i (List.getElem?_eq_some_iff.1 hi).1
  rw [hfault]
  rfl

theorem Faulty.ok_notMem {callers : List Nat} (h : s.Faulty callers.length) {caller : Nat}
    {c : Catalog} : (caller, .ok c) ∉ s.attempts callers := fun hok => by
  obtain ⟨i, hi, hread⟩ := mem_attempts.1 hok
  exact h.attempt_ne_ok (List.getElem?_eq_some_iff.1 hi).1 hread

/-- The reply to the query that is sent after `n` faults. -/
theorem receive_send_afterFaults (s : Session) (n : Nat) :
    ((s.afterFaults n).send (s.statementOf catalogQuery)).nextReply = replyAt s.replies n ∧
    ((s.afterFaults n).send (s.statementOf catalogQuery)).receive = s.afterFaults (n + 1) := by
  refine ⟨nextReply_drop _ rfl, ?_⟩
  simp only [afterFaults, send, receive, List.tail_drop, List.append_assoc, List.replicate_succ']

theorem tables_afterFaults (hs : s.catalog = none) (n : Nat) :
    (s.afterFaults n).tables = (s.attempt n, (s.afterFaults (n + 1)).keep (s.attempt n)) := by
  obtain ⟨hreply, hreceive⟩ := receive_send_afterFaults s n
  have hnone : (s.afterFaults n).catalog = none := hs
  have hstatement : (s.afterFaults n).statementOf catalogQuery = s.statementOf catalogQuery := rfl
  simp only [tables, hnone, run, hstatement, hreply, hreceive, attempt]

/-- Attempts that give faults, made one after another. -/
theorem inTurn_of_faulty (hs : s.catalog = none) {callers : List Nat}
    (h : s.Faulty callers.length) :
    s.inTurn callers = (s.attempts callers, s.afterFaults callers.length) := by
  induction callers using List.reverseRecOn with
  | nil => rw [List.length_nil, afterFaults_zero]; rfl
  | append_singleton callers caller ih =>
    rw [List.length_append, List.length_singleton] at h
    obtain ⟨fault, hfault⟩ := h callers.length (Nat.lt_succ_self _)
    have hbefore := ih fun i hi => h i (Nat.lt_succ_of_lt hi)
    simp only [inTurn_append, hbefore, inTurn, tables_afterFaults hs, attempts_append_singleton,
      hfault, keep, List.length_append, List.length_singleton]

/-- Attempts that give faults, then one that succeeds: its catalog is everyone's who comes later. -/
theorem inTurn_of_read (hs : s.catalog = none) {failed others : List Nat} {caller : Nat}
    {c : Catalog} (h : s.Faulty failed.length) (hread : s.attempt failed.length = .ok c) :
    s.inTurn (failed ++ caller :: others) =
      (s.attempts (failed ++ [caller]) ++ others.map fun other => (other, .ok c),
        { s.afterFaults (failed.length + 1) with catalog := some c }) := by
  have hkept : ({ s.afterFaults (failed.length + 1) with catalog := some c } : Session).catalog =
      some c := rfl
  simp only [inTurn_append, inTurn_of_faulty hs h, inTurn, tables_afterFaults hs, hread, keep,
    inTurn_of_some hkept, attempts_append_singleton, List.append_assoc, List.singleton_append]

end Session

namespace SharedFetch

open Session

variable {session : Session} {callers fetchers : List Nat} {f : SharedFetch}

/-! ## What is counted along a run -/

/-- The caller that arrives. -/
def Event.arrival? : Event → Option Nat
  | .arrive caller => some caller
  | _ => none

/-- The callers that arrive, in order. -/
def arrivals (events : List Event) : List Nat := events.filterMap Event.arrival?

/-- The caller that sends the catalog query. -/
def Event.fetcher? (cell : OnceCell) (f : SharedFetch) : Event → Option Nat
  | .fetch caller => if cell.starts f caller then some caller else none
  | _ => none

/-- The callers that send the catalog query, in order. -/
def fetchersOf (cell : OnceCell) (f : SharedFetch) : List Event → List Nat
  | [] => []
  | e :: events => (e.fetcher? cell f).toList ++ fetchersOf cell (f.happen cell e) events

/-- The number of callers that finished with a fault. -/
def faults (f : SharedFetch) : Nat := f.finished.countP fun entry => !entry.2.isOk

/-! ## The three phases -/

/-- How callers of a session stand who came in a certain order, some of whom sent the catalog query.
Those who sent it are the first ones who came. -/
inductive Phase (session : Session) : List Nat → List Nat → SharedFetch → Prop where
  /-- All fetches failed, and none is in flight. -/
  | resting {failed waiting : List Nat} (hfailed : session.Faulty failed.length) :
    Phase session (failed ++ waiting) failed
      ⟨session.afterFaults failed.length, none, waiting, session.attempts failed⟩
  /-- All fetches failed but the one in flight. -/
  | fetching {failed waiting : List Nat} {caller : Nat} (hfailed : session.Faulty failed.length) :
    Phase session (failed ++ caller :: waiting) (failed ++ [caller])
      ⟨(session.afterFaults failed.length).send (session.statementOf catalogQuery), some caller,
        waiting, session.attempts failed⟩
  /-- The last fetch succeeded, and its catalog is kept. -/
  | kept {failed others served waiting : List Nat} {caller : Nat} {c : Catalog}
    (hfailed : session.Faulty failed.length) (hread : session.attempt failed.length = .ok c)
    (hothers : (served ++ waiting).Perm others) :
    Phase session (failed ++ caller :: others) (failed ++ [caller])
      ⟨{ session.afterFaults (failed.length + 1) with catalog := some c }, none, waiting,
        session.attempts (failed ++ [caller]) ++ served.map fun other => (other, .ok c)⟩

theorem Phase.idle (session : Session) : Phase session [] [] (idle session) := by
  have h : session.Faulty ([] : List Nat).length := fun i hi => absurd hi (Nat.not_lt_zero i)
  have hresting : Phase session ([] ++ []) [] ⟨session.afterFaults 0, none, [], []⟩ := .resting h
  rwa [afterFaults_zero] at hresting

theorem Phase.arrive (h : Phase session callers fetchers f) (caller : Nat) :
    Phase session (callers ++ [caller]) fetchers (f.arrive caller) := by
  cases h with
  | resting hfailed =>
    rw [List.append_assoc]
    exact .resting hfailed
  | fetching hfailed =>
    rw [List.append_assoc]
    exact .fetching hfailed
  | kept hfailed hread hothers =>
    rw [List.append_assoc]
    refine .kept hfailed hread ?_
    rw [← List.append_assoc]
    exact hothers.append_right _

/-- Only the first in line can start to fetch, and only while none fetches and no catalog is kept.
-/
theorem Phase.fetch {cell : OnceCell} (h : Phase session callers fetchers f) {caller : Nat}
    (hstarts : cell.starts f caller = true) :
    Phase session callers (fetchers ++ [caller]) (f.fetch caller) := by
  have hfirst := cell.inOrder hstarts
  cases h with
  | @resting failed waiting hfailed =>
    obtain ⟨rest, rfl⟩ : ∃ rest, waiting = caller :: rest := List.head?_eq_some_iff.1 hfirst
    simpa [SharedFetch.fetch] using! Phase.fetching hfailed
  | fetching => cases cell.alone hstarts
  | kept => cases cell.unset hstarts

theorem Phase.answer (h : Phase session callers fetchers f) :
    Phase session callers fetchers f.answer := by
  cases h with
  | resting hfailed => exact .resting hfailed
  | kept hfailed hread hothers => exact .kept hfailed hread hothers
  | @fetching failed waiting caller hfailed =>
    obtain ⟨hreply, hreceive⟩ := receive_send_afterFaults session failed.length
    simp only [SharedFetch.answer, hreply, hreceive]
    rw [← attempt, ← attempts_append_singleton]
    cases hresult : session.attempt failed.length with
    | ok c =>
      have hothers : ([] ++ waiting).Perm waiting := .refl waiting
      simpa [keep] using Phase.kept hfailed hresult hothers
    | error fault =>
      have hfaulty : session.Faulty (failed ++ [caller]).length := by
        simpa using hfailed.succ hresult
      have hresting : Phase session ((failed ++ [caller]) ++ waiting) _ _ := .resting hfaulty
      simpa [keep] using hresting

theorem Phase.serve (hs : session.catalog = none) (h : Phase session callers fetchers f)
    (caller : Nat) : Phase session callers fetchers (f.serve caller) := by
  cases h with
  | resting hfailed =>
    simpa only [SharedFetch.serve, afterFaults, hs] using Phase.resting hfailed
  | fetching hfailed =>
    simpa only [SharedFetch.serve, send, afterFaults, hs] using Phase.fetching hfailed
  | @kept failed others served waiting _ c hfailed hread hothers =>
    simp only [SharedFetch.serve]
    split
    · rename_i hwaits
      -- the one who waited moves to the end of those who were served
      have hmoved : ((served ++ [caller]) ++ waiting.erase caller).Perm others := by
        rw [List.append_assoc]
        exact ((List.perm_cons_erase hwaits).symm.append_left served).trans hothers
      simpa using Phase.kept hfailed hread hmoved
    · exact .kept hfailed hread hothers

/-- One event: callers stay in phase. -/
theorem Phase.happen (cell : OnceCell) (hs : session.catalog = none)
    (h : Phase session callers fetchers f) (e : Event) :
    Phase session (callers ++ e.arrival?.toList) (fetchers ++ (e.fetcher? cell f).toList)
      (f.happen cell e) := by
  cases e with
  | arrive caller => simpa [Event.arrival?, Event.fetcher?] using! h.arrive caller
  | fetch caller =>
    by_cases hstarts : cell.starts f caller
    · simpa [Event.arrival?, Event.fetcher?, SharedFetch.happen, hstarts] using h.fetch hstarts
    · simpa [Event.arrival?, Event.fetcher?, SharedFetch.happen, hstarts] using h
  | answer => simpa [Event.arrival?, Event.fetcher?] using! h.answer
  | serve caller => simpa [Event.arrival?, Event.fetcher?] using! h.serve hs caller

/-- Many events. -/
theorem Phase.happenAll (cell : OnceCell) (hs : session.catalog = none)
    (h : Phase session callers fetchers f) (events : List Event) :
    Phase session (callers ++ arrivals events) (fetchers ++ fetchersOf cell f events)
      (f.happenAll cell events) := by
  induction events generalizing callers fetchers f with
  | nil => simpa [arrivals, fetchersOf] using! h
  | cons e events ih =>
    have hrest := ih (h.happen cell hs e)
    have harrivals : arrivals (e :: events) = e.arrival?.toList ++ arrivals events := by
      cases e <;> rfl
    rw [harrivals, fetchersOf, ← List.append_assoc, ← List.append_assoc]
    exact hrest

/-! ## What is read off the phase -/

/-- Every caller has one place: it waits, fetches or has finished. -/
theorem Phase.placed (h : Phase session callers fetchers f) :
    (f.finished.map Prod.fst ++ f.fetching.toList ++ f.waiting).Perm callers := by
  cases h with
  | resting => simp [map_fst_attempts]
  | fetching => simp [map_fst_attempts]
  | kept _ _ hothers =>
    simpa [map_fst_attempts, Function.comp_def] using (hothers.cons _).append_left _

theorem Phase.exists_callers_eq_append (h : Phase session callers fetchers f) :
    ∃ rest, callers = fetchers ++ rest := by
  cases h with
  | @resting _ waiting => exact ⟨waiting, rfl⟩
  | @fetching _ waiting => exact ⟨waiting, by simp⟩
  | @kept _ others => exact ⟨others, by simp⟩

theorem Phase.log_eq (h : Phase session callers fetchers f) :
    f.session.log =
      session.log ++ List.replicate fetchers.length (session.statementOf catalogQuery) := by
  cases h with
  | resting => rfl
  | fetching => simp [afterFaults, send, List.replicate_succ']
  | kept => simp [afterFaults]

/-- The fetches whose replies have been taken failed, but for the one that filled the cell. -/
theorem Phase.answered (hs : session.catalog = none) (h : Phase session callers fetchers f) :
    f.session.replies = session.replies.drop (f.faults + f.session.catalog.toList.length) ∧
    fetchers.length = f.faults + f.session.catalog.toList.length + f.fetching.toList.length := by
  cases h with
  | resting hfailed =>
    simp [faults, hfailed.countP_attempts, afterFaults, hs]
  | fetching hfailed =>
    simp [faults, hfailed.countP_attempts, afterFaults, send, hs]
  | @kept _ _ _ _ _ c hfailed hread =>
    have hisOk : (Except.ok c : Except Fault Catalog).isOk = true := rfl
    simp [faults, attempts_append_singleton, hfailed.countP_attempts, hread, hisOk, afterFaults,
      Function.comp_def]

/-- Only the last fetch can have succeeded. -/
theorem Phase.read_last (hs : session.catalog = none) (h : Phase session callers fetchers f)
    {i : Nat} (hi : i < f.faults + f.session.catalog.toList.length) {c : Catalog}
    (hread : session.attempt i = .ok c) :
    i + 1 = fetchers.length ∧ f.session.catalog = some c := by
  replace hi : i + f.fetching.toList.length < fetchers.length := by
    have hanswered := (h.answered hs).2
    omega
  cases h with
  | resting hfailed => exact absurd hread (hfailed.attempt_ne_ok hi)
  | @fetching failed _ _ hfailed =>
    have hi : i < failed.length := by simpa using hi
    exact absurd hread (hfailed.attempt_ne_ok hi)
  | @kept failed _ _ _ _ _ hfailed hkept =>
    have hi : i < failed.length + 1 := by simpa using hi
    rcases Nat.lt_succ_iff_lt_or_eq.1 hi with hi | rfl
    · exact absurd hread (hfailed.attempt_ne_ok hi)
    · exact ⟨by simp, congrArg Except.toOption (hkept.symm.trans hread)⟩

/-- Who got a catalog got the one that is kept. -/
theorem Phase.ok (h : Phase session callers fetchers f) {caller : Nat} {c : Catalog}
    (hok : (caller, .ok c) ∈ f.finished) : f.session.catalog = some c := by
  cases h with
  | resting hfailed => exact absurd hok hfailed.ok_notMem
  | fetching hfailed => exact absurd hok hfailed.ok_notMem
  | kept hfailed hread =>
    rw [attempts_append_singleton, hread, List.append_assoc] at hok
    rcases List.mem_append.1 hok with hok | hok
    · exact absurd hok hfailed.ok_notMem
    · simp only [List.singleton_append, List.mem_cons, List.mem_map, Prod.mk.injEq,
        Except.ok.injEq] at hok
      obtain ⟨-, rfl⟩ | ⟨_, -, -, rfl⟩ := hok <;> rfl

/-- Who got a fault got that of a fetch of its own. -/
theorem Phase.error (h : Phase session callers fetchers f) {caller : Nat} {fault : Fault}
    (herror : (caller, .error fault) ∈ f.finished) :
    ∃ i, fetchers[i]? = some caller ∧ session.attempt i = .error fault := by
  cases h with
  | resting => exact mem_attempts.1 herror
  | fetching =>
    obtain ⟨i, hi, hfault⟩ := mem_attempts.1 herror
    exact ⟨i, List.getElem?_append_left (List.getElem?_eq_some_iff.1 hi).1 ▸ hi, hfault⟩
  | kept =>
    rcases List.mem_append.1 herror with herror | herror
    · exact mem_attempts.1 herror
    · simp at herror

/-- When all have finished they have the results that they would get one after another. -/
theorem Phase.inTurn (hs : session.catalog = none) (h : Phase session callers fetchers f)
    (hfetching : f.fetching = none) (hwaiting : f.waiting = []) :
    f.finished.Perm (session.inTurn callers).1 ∧ f.session = (session.inTurn callers).2 := by
  cases h with
  | resting hfailed =>
    obtain rfl := hwaiting
    simp [inTurn_of_faulty hs hfailed]
  | fetching => cases hfetching
  | kept hfailed hread hothers =>
    obtain rfl := hwaiting
    rw [inTurn_of_read hs hfailed hread]
    rw [List.append_nil] at hothers
    exact ⟨(hothers.map _).append_left _, rfl⟩

/-- While a catalog is kept, no event touches the session. -/
theorem session_happen_of_some (cell : OnceCell) {c : Catalog}
    (hkept : f.session.catalog = some c) (hfetching : f.fetching = none) (e : Event) :
    (f.happen cell e).session = f.session ∧ (f.happen cell e).fetching = none := by
  cases e with
  | arrive caller => exact ⟨rfl, hfetching⟩
  | fetch caller =>
    have hstarts : ¬ cell.starts f caller = true := fun hstarts => by
      cases hkept.symm.trans (cell.unset hstarts)
    rw [happen, if_neg hstarts]
    exact ⟨rfl, hfetching⟩
  | answer =>
    rw [happen, SharedFetch.answer, hfetching]
    exact ⟨rfl, hfetching⟩
  | serve caller =>
    simp only [happen, SharedFetch.serve, hkept]
    split <;> exact ⟨rfl, hfetching⟩

theorem session_happenAll_of_some (cell : OnceCell) {c : Catalog}
    (hkept : f.session.catalog = some c) (hfetching : f.fetching = none) (events : List Event) :
    (f.happenAll cell events).session = f.session := by
  induction events generalizing f with
  | nil => rfl
  | cons e events ih =>
    obtain ⟨hsession, hnone⟩ := session_happen_of_some cell hkept hfetching e
    exact (ih (hsession ▸ hkept) hnone).trans hsession

theorem Phase.fetching_eq_none (hs : session.catalog = none)
    (h : Phase session callers fetchers f) {c : Catalog} (hkept : f.session.catalog = some c) :
    f.fetching = none := by
  cases h with
  | resting => rfl
  | fetching => cases hs.symm.trans hkept
  | kept => rfl

theorem lookup_eq_of_perm {α : Type} {l l' : List (Nat × α)} (h : l.Perm l')
    (hkeys : (l.map Prod.fst).Nodup) (key : Nat) : l.lookup key = l'.lookup key := by
  induction h with
  | nil => rfl
  | cons entry _ ih => rw [List.lookup_cons, List.lookup_cons, ih hkeys.of_cons]
  | swap first second l =>
    have hne : second.1 ≠ first.1 := fun e => by simp [e] at hkeys
    rw [List.lookup_cons, List.lookup_cons, List.lookup_cons, List.lookup_cons]
    cases hfirst : key == first.1 with
    | false => rfl
    | true =>
      have hsecond : (key == second.1) = false :=
        beq_eq_false_iff_ne.2 fun e => hne (e.symm.trans (beq_iff_eq.1 hfirst))
      rw [hsecond]
  | trans h _ ih ih' => rw [ih hkeys, ih' ((h.map Prod.fst).nodup hkeys)]

/-! ## All that can be said -/

/-- Callers of a session who came in a certain order, some of whom sent the catalog query, share
what was fetched. -/
structure Shared (session : Session) (callers fetchers : List Nat) (f : SharedFetch) : Prop where
  /-- Every caller waits, fetches or has finished. -/
  placed : (f.finished.map Prod.fst ++ f.fetching.toList ++ f.waiting).Perm callers
  /-- Each fetch sends one query and nothing else is sent. -/
  log : f.session.log =
    session.log ++ List.replicate fetchers.length (session.statementOf catalogQuery)
  /-- There is a fetch for each fault, one if a catalog is kept, and one if a query is in flight. -/
  count : fetchers.length =
    f.faults + f.session.catalog.toList.length + f.fetching.toList.length
  /-- The replies to all queries but one at most were taken. -/
  replies : f.session.replies =
      session.replies.drop (f.faults + f.session.catalog.toList.length) ∧
    fetchers.length ≤ f.faults + f.session.catalog.toList.length + 1
  /-- Among the attempts that got a reply, one that succeeded is the last, and its catalog is
  kept. -/
  last : ∀ i < f.faults + f.session.catalog.toList.length, ∀ c, session.attempt i = .ok c →
    i + 1 = fetchers.length ∧ f.session.catalog = some c
  /-- Who got a catalog got the one that is kept. -/
  ok : ∀ caller c, (caller, .ok c) ∈ f.finished → f.session.catalog = some c
  /-- Who got a fault got that of the one fetch of its own. -/
  error : ∀ caller fault, (caller, .error fault) ∈ f.finished →
    ∃ i, session.attempt i = .error fault ∧ ∀ j, fetchers[j]? = some caller ↔ j = i
  /-- When all have finished it is as if they had asked one after another. -/
  inTurn : f.fetching = none → f.waiting = [] →
    f.session = (session.inTurn callers).2 ∧
    ∀ caller, f.result? caller = (session.inTurn callers).1.lookup caller

theorem Phase.shared (hs : session.catalog = none) (h : Phase session callers fetchers f)
    (hdistinct : callers.Nodup) : Shared session callers fetchers f where
  placed := h.placed
  log := h.log_eq
  count := (h.answered hs).2
  replies := by
    have hflight : f.fetching.toList.length ≤ 1 := by cases f.fetching <;> simp
    obtain ⟨hreplies, hcount⟩ := h.answered hs
    exact ⟨hreplies, by omega⟩
  last i hi c hread := h.read_last hs hi hread
  ok caller c hok := h.ok hok
  error caller fault herror := by
    obtain ⟨i, hi, hfault⟩ := h.error herror
    obtain ⟨rest, rfl⟩ := h.exists_callers_eq_append
    have hfetchers : fetchers.Nodup := hdistinct.of_append_left
    refine ⟨i, hfault, fun j => ⟨fun hj => ?_, fun hj => hj ▸ hi⟩⟩
    exact (List.getElem?_inj (List.getElem?_eq_some_iff.1 hj).1 hfetchers).1 (hj.trans hi.symm)
  inTurn hfetching hwaiting := by
    obtain ⟨hperm, hsession⟩ := h.inTurn hs hfetching hwaiting
    have hplaced := h.placed
    rw [hfetching, hwaiting, Option.toList_none, List.append_nil, List.append_nil] at hplaced
    exact ⟨hsession, lookup_eq_of_perm hperm (hplaced.symm.nodup hdistinct)⟩

/-- Callers who ask a session for its catalog share one fetch, whatever cell it is kept in, in
whatever order they come, fetch and are served, and whatever the replies are. Once a catalog is kept
the session stays as it is. -/
theorem shared_happenAll (cell : OnceCell) (hs : session.catalog = none) (events : List Event)
    (hdistinct : (arrivals events).Nodup) :
    let f := (idle session).happenAll cell events
    Shared session (arrivals events) (fetchersOf cell (idle session) events) f ∧
    ∀ c more, f.session.catalog = some c →
      ((idle session).happenAll cell (events ++ more)).session = f.session := by
  intro f
  have hphase : Phase session (arrivals events) (fetchersOf cell (idle session) events) f :=
    (Phase.idle session).happenAll cell hs events
  refine ⟨hphase.shared hs hdistinct, fun c more hkept => ?_⟩
  rw [SharedFetch.happenAll, List.foldl_append]
  exact session_happenAll_of_some cell hkept (hphase.fetching_eq_none hs hkept) more

/-- The first fetch fails while two more callers wait; the second one succeeds. -/
theorem shared_happenAll_retry :
    let session := Session.start .standard [.error (.connection "refused"), .ok []]
    let events : List Event := [.arrive 7, .fetch 7, .arrive 3, .fetch 3, .arrive 5, .answer,
      .fetch 5, .fetch 3, .answer, .serve 5]
    let f := (idle session).happenAll .plain events
    session.catalog = none ∧ (arrivals events).Nodup ∧
    f.fetching = none ∧ f.waiting = [] ∧ f.finished.map Prod.fst = [7, 3, 5] ∧
    Shared session (arrivals events) (fetchersOf .plain (idle session) events) f ∧
    ∀ c more, f.session.catalog = some c →
      ((idle session).happenAll .plain (events ++ more)).session = f.session :=
  ⟨rfl, by decide, by rfl, by rfl, by rfl, shared_happenAll .plain rfl _ (by decide)⟩

/-! ## Callers who come together -/

theorem happenAll_append (cell : OnceCell) (f : SharedFetch) (events more : List Event) :
    f.happenAll cell (events ++ more) = (f.happenAll cell events).happenAll cell more :=
  List.foldl_append

theorem happenAll_arrivals (cell : OnceCell) (f : SharedFetch) (callers : List Nat) :
    f.happenAll cell (callers.map .arrive) = { f with waiting := f.waiting ++ callers } := by
  induction callers generalizing f with
  | nil => simp [SharedFetch.happenAll]
  | cons caller callers ih =>
    rw [List.map_cons, ← List.singleton_append, happenAll_append, ih]
    simp [SharedFetch.happenAll, happen, arrive]

/-- The first in line has the result that it would get alone. -/
theorem happenAll_turn (cell : OnceCell) (s : Session) (caller : Nat) (waiting : List Nat)
    (finished : List (Nat × Except Fault Catalog)) :
    (⟨s, none, caller :: waiting, finished⟩ : SharedFetch).happenAll cell (turn caller) =
      ⟨s.tables.2, none, waiting, finished ++ [(caller, s.tables.1)]⟩ := by
  simp only [SharedFetch.happenAll, turn, List.foldl_cons, List.foldl_nil, happen]
  cases hc : s.catalog with
  | some c =>
    have hserved : (⟨s, none, caller :: waiting, finished⟩ : SharedFetch).serve caller =
        ⟨s, none, waiting, finished ++ [(caller, .ok c)]⟩ := by
      simp [SharedFetch.serve, hc]
    have hstarts : ¬ cell.starts ⟨s, none, waiting, finished ++ [(caller, .ok c)]⟩ caller = true :=
      fun hstarts => by cases hc.symm.trans (cell.unset hstarts)
    rw [hserved, if_neg hstarts, tables_of_some hc]
    rfl
  | none =>
    have hserved : (⟨s, none, caller :: waiting, finished⟩ : SharedFetch).serve caller =
        ⟨s, none, caller :: waiting, finished⟩ := by
      simp [SharedFetch.serve, hc]
    have hstarts : cell.starts ⟨s, none, caller :: waiting, finished⟩ caller = true :=
      cell.passesOn rfl hc rfl
    rw [hserved, if_pos hstarts]
    simp [SharedFetch.fetch, SharedFetch.answer, tables, hc, run]

/-- Callers who all came before the first of them fetches all finish, with the results that they
would get one after another. -/
theorem happenAll_schedule (cell : OnceCell) (session : Session) (callers : List Nat) :
    (idle session).happenAll cell (schedule callers) =
      ⟨(session.inTurn callers).2, none, [], (session.inTurn callers).1⟩ := by
  have hturns : ∀ (s : Session) (finished : List (Nat × Except Fault Catalog)),
      (⟨s, none, callers, finished⟩ : SharedFetch).happenAll cell (callers.flatMap turn) =
        ⟨(s.inTurn callers).2, none, [], finished ++ (s.inTurn callers).1⟩ := by
    induction callers with
    | nil => simp [SharedFetch.happenAll, inTurn]
    | cons caller callers ih =>
      intro s finished
      rw [List.flatMap_cons, happenAll_append, happenAll_turn, ih]
      simp [inTurn]
  rw [schedule, happenAll_append, happenAll_arrivals]
  exact hturns session []

/-- Callers who come together finish together, as if they had asked one after another. -/
theorem together_eq (session : Session) (n : Nat) :
    together session n = ⟨(session.inTurn (List.range n)).2, none, [],
      (session.inTurn (List.range n)).1⟩ :=
  happenAll_schedule .plain session (List.range n)

end SharedFetch

end SqlSelect
