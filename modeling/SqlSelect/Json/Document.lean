import SqlSelect.Json.Basic
import SqlSelect.Json.Tree

/-!
# Documents from syntax trees

A tree becomes a document when its strings are text, its numerals have values and its containers are
not nested too deep. The result is sorted (`canonical_ofTree?`).
-/

namespace SqlSelect.Json

/-- Whether a 16-bit code opens a surrogate pair. -/
def isLeadSurrogate (n : Nat) : Bool :=
  0xD800 ≤ n && n < 0xDC00

/-- Whether a 16-bit code closes a surrogate pair. -/
def isTrailSurrogate (n : Nat) : Bool :=
  0xDC00 ≤ n && n < 0xE000

/-- The character of a surrogate pair. -/
def ofSurrogates (lead trail : Nat) : Char :=
  Char.ofNat (0x10000 + (lead - 0xD800) * 0x400 + (trail - 0xDC00))

/-- The text of a string literal; a surrogate outside a pair stands for no character. -/
def decodeUnits? : List StringUnit → Option (List Char)
  | [] => some []
  | .char c :: rest => (decodeUnits? rest).map (c :: ·)
  | .code n :: rest =>
    if isLeadSurrogate n then
      match rest with
      | .code m :: rest =>
        if isTrailSurrogate m then (decodeUnits? rest).map (ofSurrogates n m :: ·) else none
      | _ => none
    else if isTrailSurrogate n then none
    else (decodeUnits? rest).map (Char.ofNat n :: ·)

/-- The string of a string literal. -/
def stringOfUnits? (units : List StringUnit) : Option String :=
  (decodeUnits? units).map String.ofList

mutual

/-- The value of a tree with at most `depth` containers inside each other. -/
def ofTree? (depth : Nat) : Tree → Option Json
  | .null => some .null
  | .bool b => some (.bool b)
  | .number n => (Number.ofNumeral? n).map .number
  | .string units => (stringOfUnits? units).map .string
  | .array items =>
    match depth with
    | 0 => none
    | depth + 1 => (ofTrees? depth items).map .array
  | .object members =>
    match depth with
    | 0 => none
    | depth + 1 => (ofMembers? depth members).map fun ms => .object (Members.ofList ms)

/-- The values of the items of an array. -/
def ofTrees? (depth : Nat) : List Tree → Option (List Json)
  | [] => some []
  | t :: rest => do
    let x ← ofTree? depth t
    let xs ← ofTrees? depth rest
    some (x :: xs)

/-- The members of an object, as written. -/
def ofMembers? (depth : Nat) : List (List StringUnit × Tree) → Option (List (String × Json))
  | [] => some []
  | (units, t) :: rest => do
    let key ← stringOfUnits? units
    let x ← ofTree? depth t
    let ms ← ofMembers? depth rest
    some ((key, x) :: ms)

end

mutual

theorem canonical_ofTree? {depth : Nat} {t : Tree} {x : Json} (h : ofTree? depth t = some x) :
    x.Canonical := by
  cases t with
  | null => simp only [ofTree?, Option.some.injEq] at h; subst h; trivial
  | bool b => simp only [ofTree?, Option.some.injEq] at h; subst h; trivial
  | number n =>
    obtain ⟨v, -, rfl⟩ := Option.map_eq_some_iff.1 h
    trivial
  | string units =>
    obtain ⟨v, -, rfl⟩ := Option.map_eq_some_iff.1 h
    trivial
  | array items =>
    cases depth with
    | zero => simp [ofTree?] at h
    | succ depth =>
      obtain ⟨xs, hxs, rfl⟩ := Option.map_eq_some_iff.1 h
      exact canonicalItems_ofTrees? hxs
  | object members =>
    cases depth with
    | zero => simp [ofTree?] at h
    | succ depth =>
      obtain ⟨ms, hms, rfl⟩ := Option.map_eq_some_iff.1 h
      refine ⟨Members.sorted_ofList ms, (canonicalMembers_iff _).2 ?_⟩
      intro m hm
      exact (canonicalMembers_iff _).1 (canonicalMembers_ofMembers? hms) m
        (Members.mem_of_mem_ofList hm)

theorem canonicalItems_ofTrees? {depth : Nat} {ts : List Tree} {xs : List Json}
    (h : ofTrees? depth ts = some xs) : CanonicalItems xs := by
  cases ts with
  | nil => simp only [ofTrees?, Option.some.injEq] at h; subst h; trivial
  | cons t rest =>
    simp only [ofTrees?, Option.bind_eq_bind, Option.bind_eq_some_iff, Option.some.injEq] at h
    obtain ⟨y, hy, ys, hys, rfl⟩ := h
    exact ⟨canonical_ofTree? hy, canonicalItems_ofTrees? hys⟩

theorem canonicalMembers_ofMembers? {depth : Nat} {ts : List (List StringUnit × Tree)}
    {ms : List (String × Json)} (h : ofMembers? depth ts = some ms) : CanonicalMembers ms := by
  cases ts with
  | nil => simp only [ofMembers?, Option.some.injEq] at h; subst h; trivial
  | cons t rest =>
    obtain ⟨units, t⟩ := t
    simp only [ofMembers?, Option.bind_eq_bind, Option.bind_eq_some_iff, Option.some.injEq] at h
    obtain ⟨key, -, y, hy, ys, hys, rfl⟩ := h
    exact ⟨canonical_ofTree? hy, canonicalMembers_ofMembers? hys⟩

end

namespace Document

/-- The most containers inside each other in a document that stands alone. -/
def maxDepth : Nat := 127

/-- The document of a tree. -/
def ofTree? (depth : Nat) (t : Tree) : Option Document :=
  match h : Json.ofTree? depth t with
  | some x => some ⟨x, canonical_ofTree? h⟩
  | none => none

/-- The document of a text. -/
def parse? (text : String) : Option Document :=
  (Tree.parse? text).bind (ofTree? maxDepth)

end Document

end SqlSelect.Json
