import SqlSelect.Proofs.Lexing.Spacing

/-!
# Readers of lexemes

A reader takes lexemes from the front of a list and skips the blanks behind each token. `ReadsAt`
says that a reader reads a fragment: from the lexemes that show the fragment it gets a value, and it
stops where they end, unless the next token is one of those that the reader would go on with.
Fragments one after another are read by readers one after another (`Reads.bind`).
-/

namespace SqlSelect

/-- Whether a token is a name. -/
def Token.isName : Token → Bool
  | .name _ => true
  | _ => false

/-- Reads something from the front of a list of lexemes. -/
abbrev Reader := StateT (List Lexeme) Option

namespace Reader

variable {α β : Type}

/-- Lexemes without the blanks in front. -/
def skip : List Lexeme → List Lexeme
  | [] => []
  | ⟨_, none⟩ :: xs => skip xs
  | ⟨source, some t⟩ :: xs => ⟨source, some t⟩ :: xs

/-- The first token of a list of lexemes. -/
def first? : List Lexeme → Option Token
  | [] => none
  | ⟨_, none⟩ :: xs => first? xs
  | ⟨_, some t⟩ :: _ => some t

/-- Read the next token. -/
def token : Reader Token := fun xs =>
  match xs with
  | ⟨_, some t⟩ :: rest => some (t, skip rest)
  | _ => none

/-- Read a token if it is the next one, and tell whether it is. -/
def accept (t : Token) : Reader Bool := fun xs =>
  if first? xs = some t then (token xs).map fun r => (true, r.2) else some (false, xs)

/-- Read a token that must be the next one. -/
def expect (t : Token) : Reader Unit := do
  match ← accept t with
  | true => return ()
  | false => failure

/-- Read a name. -/
def name : Reader String := do
  match ← token with
  | .name word => return word
  | _ => failure

/-- Read something in parentheses. -/
def parenthesised (r : Reader α) : Reader α := do
  expect (.symbol .openParen)
  let a ← r
  expect (.symbol .closeParen)
  return a

/-- Read a part that follows a word, if the word is there. -/
def optional (word : Keyword) (r : Reader α) : Reader (Option α) := do
  match ← accept (.keyword word) with
  | true =>
    let a ← r
    return some a
  | false => return none

theorem run_bind (r : Reader α) (k : α → Reader β) (xs : List Lexeme) :
    (r >>= k) xs = (r xs).bind fun p => k p.1 p.2 := rfl

theorem run_pure (a : α) (xs : List Lexeme) : (pure a : Reader α) xs = some (a, xs) := rfl

theorem run_orElse (r r' : Reader α) (xs : List Lexeme) :
    (r <|> r') xs = (r xs).or (r' xs) := by
  show (r xs <|> r' xs) = _
  cases r xs <;> rfl

/-! ## Blanks and first tokens -/

@[simp] theorem skip_blank (source : List Char) (xs : List Lexeme) :
    skip (⟨source, none⟩ :: xs) = skip xs := rfl

@[simp] theorem skip_token (source : List Char) (t : Token) (xs : List Lexeme) :
    skip (⟨source, some t⟩ :: xs) = ⟨source, some t⟩ :: xs := rfl

@[simp] theorem first?_token (source : List Char) (t : Token) (xs : List Lexeme) :
    first? (⟨source, some t⟩ :: xs) = some t := rfl

theorem first?_skip (xs : List Lexeme) : first? (skip xs) = first? xs := by
  induction xs with
  | nil => rfl
  | cons x xs ih =>
    obtain ⟨source, _ | t⟩ := x
    · exact ih
    · rfl

theorem token_eq (source : List Char) (t : Token) (xs : List Lexeme) :
    token (⟨source, some t⟩ :: xs) = some (t, skip xs) := rfl

theorem accept_eq (source : List Char) (t : Token) (xs : List Lexeme) :
    accept t (⟨source, some t⟩ :: xs) = some (true, skip xs) := by
  rw [accept, if_pos (first?_token source t xs)]
  rfl

theorem accept_of_ne {t : Token} {xs : List Lexeme} (h : first? xs ≠ some t) :
    accept t xs = some (false, xs) :=
  if_neg h

theorem expect_eq (source : List Char) (t : Token) (xs : List Lexeme) :
    expect t (⟨source, some t⟩ :: xs) = some ((), skip xs) := by
  rw [expect, run_bind, accept_eq]
  rfl

theorem expect_of_ne {t : Token} {xs : List Lexeme} (h : first? xs ≠ some t) :
    expect t xs = none := by
  rw [expect, run_bind, accept_of_ne h]
  rfl

/-! ## What may follow -/

/-- Whether the next token is none of those listed. -/
def Avoids (stops : List Token) (xs : List Lexeme) : Prop := ∀ t ∈ first? xs, t ∉ stops

theorem Avoids.mono {stops stops' : List Token} {xs : List Lexeme} (h : Avoids stops' xs)
    (hsub : stops ⊆ stops') : Avoids stops xs :=
  fun t ht hmem => h t ht (hsub hmem)

theorem Avoids.ne {stops : List Token} {xs : List Lexeme} (h : Avoids stops xs) {t : Token}
    (ht : t ∈ stops) : first? xs ≠ some t :=
  fun hfirst => h t hfirst ht

theorem avoids_nil (stops : List Token) : Avoids stops [] :=
  fun _ ht => by cases ht

theorem avoids_token {stops : List Token} {t : Token} (h : t ∉ stops) (source : List Char)
    (xs : List Lexeme) : Avoids stops (⟨source, some t⟩ :: xs) := by
  intro t' ht'
  cases ht'
  exact h

end Reader

open Reader Fragment

/-! ## Looking up placeholders -/

/-- Whether the values behind the first `bound` ones are found under their numbers. -/
def Resolves (lookup : Nat → Option Value) (bound : Nat) (values : List Value) : Prop :=
  ∀ (i : Nat) (v : Value), values[i]? = some v → lookup (bound + i + 1) = some v

theorem Resolves.append_left {lookup : Nat → Option Value} {bound : Nat} {vs ws : List Value}
    (h : Resolves lookup bound (vs ++ ws)) : Resolves lookup bound vs := by
  intro i v hv
  have hlt : i < vs.length := (List.getElem?_eq_some_iff.mp hv).1
  exact h i v ((List.getElem?_append_left hlt).trans hv)

theorem Resolves.append_right {lookup : Nat → Option Value} {bound : Nat} {vs ws : List Value}
    (h : Resolves lookup bound (vs ++ ws)) : Resolves lookup (bound + vs.length) ws := by
  intro i v hv
  have happend : (vs ++ ws)[vs.length + i]? = some v := by
    rw [List.getElem?_append_right (Nat.le_add_right _ _), Nat.add_sub_cancel_left, hv]
  rw [Nat.add_assoc bound]
  exact h (vs.length + i) v happend

/-- A list of bound values as a table from the numbers of placeholders, which start at one. -/
def boundValue? (binds : List Value) (n : Nat) : Option Value :=
  if n = 0 then none else binds[n - 1]?

theorem resolves_boundValue? (before values : List Value) :
    Resolves (boundValue? (before ++ values)) before.length values := by
  intro i v hv
  rw [boundValue?, if_neg (Nat.succ_ne_zero _), Nat.add_sub_cancel,
    List.getElem?_append_right (Nat.le_add_right _ _), Nat.add_sub_cancel_left, hv]

/-! ## Reading fragments -/

section Reads

variable {α β : Type} {q : Quoting} {lookup : Nat → Option Value}

/-- Behind any `bound` values the reader gets a value from the lexemes of a fragment and stops
behind them, if the next token is not one of `stops`. -/
def ReadsAt (q : Quoting) (lookup : Nat → Option Value) (r : Reader α) (f : Fragment)
    (value : Nat → α) (stops : List Token) : Prop :=
  ∀ bound, Resolves lookup bound f.literals → ∀ rest, Avoids stops rest →
    r (skip (f.lexemes q bound ++ rest)) = some (value bound, skip rest)

/-- The reader gets one value, whatever the number of values bound before is. -/
def Reads (q : Quoting) (lookup : Nat → Option Value) (r : Reader α) (f : Fragment) (a : α)
    (stops : List Token) : Prop :=
  ReadsAt q lookup r f (fun _ => a) stops

/-- Before what follows a fragment, no token of `stops` comes: neither at the start of the fragment
`g` nor, where `g` is empty, behind it. -/
def Leads (q : Quoting) (stops : List Token) (g : Fragment) (stops' : List Token) : Prop :=
  ∀ bound rest, Avoids stops' rest → Avoids stops (g.lexemes q bound ++ rest)

theorem leads_nil {stops stops' : List Token} (h : stops ⊆ stops') : Leads q stops [] stops' :=
  fun _ _ hrest => hrest.mono h

theorem leads_space {stops stops' : List Token} {g : Fragment} (h : Leads q stops g stops') :
    Leads q stops (.space :: g) stops' :=
  fun bound rest hrest => h bound rest hrest

theorem leads_token {stops stops' : List Token} {p : Piece} {g : Fragment}
    (h : ∀ bound, ∃ t, p.token? bound = some t ∧ t ∉ stops) : Leads q stops (p :: g) stops' := by
  intro bound rest _
  obtain ⟨t, ht, hstop⟩ := h bound
  rw [lexemes, ht]
  exact avoids_token hstop _ _

theorem leads_any {stops : List Token} (g : Fragment) : Leads q [] g stops :=
  fun _ _ _ _ _ => List.not_mem_nil

theorem leads_keyword {stops stops' : List Token} {k : Keyword} {g : Fragment}
    (h : .keyword k ∉ stops) : Leads q stops (.keyword k :: g) stops' :=
  leads_token fun _ => ⟨_, rfl, h⟩

theorem leads_symbol {stops stops' : List Token} {s : Symbol} {g : Fragment}
    (h : .symbol s ∉ stops) : Leads q stops (.symbol s :: g) stops' :=
  leads_token fun _ => ⟨_, rfl, h⟩

theorem ReadsAt.mono {r : Reader α} {f : Fragment} {value : Nat → α} {stops stops' : List Token}
    (h : ReadsAt q lookup r f value stops) (hsub : stops ⊆ stops') :
    ReadsAt q lookup r f value stops' :=
  fun bound hvalues rest hrest => h bound hvalues rest (hrest.mono hsub)

/-- Blanks in front do not matter. -/
theorem ReadsAt.space {r : Reader α} {f : Fragment} {value : Nat → α} {stops : List Token}
    (h : ReadsAt q lookup r f value stops) : ReadsAt q lookup r (.space :: f) value stops :=
  fun bound hvalues rest hrest => h bound hvalues rest hrest

theorem ReadsAt.pure {value : α} {stops : List Token} :
    ReadsAt q lookup (pure value) [] (fun _ => value) stops :=
  fun _ _ _ _ => rfl

/-- Two fragments one after another are read by two readers one after another. -/
theorem ReadsAt.bind {r : Reader α} {k : α → Reader β} {f g : Fragment} {value : Nat → α}
    {b : Nat → Nat → β} {stops stops' : List Token} (hr : ReadsAt q lookup r f value stops)
    (hk : ∀ bound, ReadsAt q lookup (k (value bound)) g (b bound) stops')
    (hg : Leads q stops g stops') :
    ReadsAt q lookup (r >>= k) (f ++ g)
      (fun bound => b bound (bound + f.literals.length)) stops' := by
  intro bound hvalues rest hrest
  -- the second fragment stands behind the literals of the first one
  rw [literals_append] at hvalues
  rw [run_bind, lexemes_append, List.append_assoc,
    hr bound hvalues.append_left _ (hg _ rest hrest)]
  exact hk bound _ hvalues.append_right rest hrest

/-- What is read last may be turned into another value. -/
theorem ReadsAt.map {r : Reader α} {f : Fragment} {value : Nat → α} {stops : List Token}
    (h : ReadsAt q lookup r f value stops) (result : α → β) :
    ReadsAt q lookup (r >>= fun a => Pure.pure (result a)) f (fun bound => result (value bound))
      stops := by
  intro bound hvalues rest hrest
  rw [run_bind, h bound hvalues rest hrest]
  rfl

/-- A token that is written as one piece is taken first, by any reader that takes this token. -/
theorem ReadsAt.step {r : Reader α} {k : α → Reader β} {p : Piece} {g : Fragment} {t : Token}
    {a : α} {value : Nat → β} {stops : List Token}
    (hr : ∀ source xs, r (⟨source, some t⟩ :: xs) = some (a, skip xs)) (hp : p.literal? = none)
    (ht : ∀ bound, p.token? bound = some t) (hk : ReadsAt q lookup (k a) g value stops) :
    ReadsAt q lookup (r >>= k) (p :: g) value stops := by
  intro bound hvalues rest hrest
  -- the piece binds no value, so the numbers behind it stay as they are
  rw [literals_cons, hp] at hvalues
  rw [lexemes, hp, ht, List.cons_append, skip_token, run_bind, hr]
  exact hk bound hvalues rest hrest

theorem ReadsAt.token {k : Token → Reader β} {p : Piece} {g : Fragment} {t : Token}
    {value : Nat → β} {stops : List Token} (hp : p.literal? = none)
    (ht : ∀ bound, p.token? bound = some t) (hk : ReadsAt q lookup (k t) g value stops) :
    ReadsAt q lookup (Reader.token >>= k) (p :: g) value stops :=
  ReadsAt.step (fun source xs => token_eq source t xs) hp ht hk

theorem ReadsAt.accept {k : Bool → Reader β} {p : Piece} {g : Fragment} {t : Token}
    {value : Nat → β} {stops : List Token} (hp : p.literal? = none)
    (ht : ∀ bound, p.token? bound = some t) (hk : ReadsAt q lookup (k true) g value stops) :
    ReadsAt q lookup (Reader.accept t >>= k) (p :: g) value stops :=
  ReadsAt.step (fun source xs => accept_eq source t xs) hp ht hk

/-- A token that does not come is not read. -/
theorem ReadsAt.not_accept {k : Bool → Reader β} {g : Fragment} {t : Token} {value : Nat → β}
    {stops : List Token} (hk : ReadsAt q lookup (k false) g value stops)
    (hg : Leads q [t] g stops) : ReadsAt q lookup (Reader.accept t >>= k) g value stops := by
  intro bound hvalues rest hrest
  have hne : first? (skip (g.lexemes q bound ++ rest)) ≠ some t := by
    rw [first?_skip]
    exact (hg bound rest hrest).ne (List.mem_singleton_self t)
  rw [run_bind, accept_of_ne hne]
  exact hk bound hvalues rest hrest

/-- A token that must come is read. -/
theorem ReadsAt.expect {k : Unit → Reader β} {p : Piece} {g : Fragment} {t : Token}
    {value : Nat → β} {stops : List Token} (hp : p.literal? = none)
    (ht : ∀ bound, p.token? bound = some t) (hk : ReadsAt q lookup (k ()) g value stops) :
    ReadsAt q lookup (Reader.expect t >>= k) (p :: g) value stops :=
  ReadsAt.step (fun source xs => expect_eq source t xs) hp ht hk

theorem ReadsAt.parenthesised {r : Reader α} {f : Fragment} {value : Nat → α}
    {stops : List Token} (h : ReadsAt q lookup r f value stops)
    (hclose : .symbol .closeParen ∉ stops) :
    ReadsAt q lookup (Reader.parenthesised r) (Fragment.parenthesised f) value [] := by
  refine ReadsAt.expect rfl (fun _ => rfl) ?_
  refine ReadsAt.bind (b := fun bound _ => value bound) h (fun bound => ?_) (leads_symbol hclose)
  exact ReadsAt.expect rfl (fun _ => rfl) ReadsAt.pure

theorem Reads.bind {r : Reader α} {k : α → Reader β} {f g : Fragment} {a : α} {b : β}
    {stops stops' : List Token} (hr : Reads q lookup r f a stops)
    (hk : Reads q lookup (k a) g b stops') (hg : Leads q stops g stops') :
    Reads q lookup (r >>= k) (f ++ g) b stops' :=
  ReadsAt.bind (b := fun _ _ => b) hr (fun _ => hk) hg

theorem Reads.map {r : Reader α} {f : Fragment} {a : α} {stops : List Token}
    (h : Reads q lookup r f a stops) (result : α → β) :
    Reads q lookup (r >>= fun a => Pure.pure (result a)) f (result a) stops :=
  ReadsAt.map h result

theorem Reads.mono {r : Reader α} {f : Fragment} {a : α} {stops stops' : List Token}
    (h : Reads q lookup r f a stops) (hsub : stops ⊆ stops') : Reads q lookup r f a stops' :=
  ReadsAt.mono h hsub

theorem Reads.space {r : Reader α} {f : Fragment} {a : α} {stops : List Token}
    (h : Reads q lookup r f a stops) : Reads q lookup r (.space :: f) a stops :=
  ReadsAt.space h

theorem reads_name (word : String) : Reads q lookup Reader.name [.name word] word [] :=
  ReadsAt.token rfl (fun _ => rfl) ReadsAt.pure

theorem Reads.optional {r : Reader α} {f : Fragment} {a : α} {stops : List Token}
    (h : Reads q lookup r f a stops) (word : Keyword) :
    Reads q lookup (Reader.optional word r) (.keyword word :: f) (some a) stops :=
  ReadsAt.accept rfl (fun _ => rfl) (h.map some)

theorem reads_optional_none (r : Reader α) {word : Keyword} {stops : List Token}
    (h : .keyword word ∈ stops) : Reads q lookup (Reader.optional word r) [] none stops :=
  ReadsAt.not_accept ReadsAt.pure (leads_nil (List.cons_subset.mpr ⟨h, List.nil_subset stops⟩))

end Reads

/-! ## Reading statements -/

/-- Read a whole statement, with its values behind its placeholders. The reader gets the number of
lexemes as a bound on the depth of nesting. -/
def Statement.read? {α : Type} (r : (Nat → Option Value) → Nat → Reader α) (s : Statement) :
    Option α := do
  let lexemes ← Lexing.lexemes? s.text.toList
  let (a, rest) ← r (boundValue? s.binds) lexemes.length (skip lexemes)
  if rest.isEmpty then some a else none

theorem Fragment.length_lexemes (q : Quoting) (bound : Nat) (f : Fragment) :
    (f.lexemes q bound).length = f.length := by
  induction f generalizing bound with
  | nil => rfl
  | cons p f ih => rw [lexemes, List.length_cons, ih, List.length_cons]

/-- What reads a fragment reads its text, to the end. -/
theorem Statement.read?_write {α : Type} {r : (Nat → Option Value) → Nat → Reader α}
    {q : Quoting} (hq : q ≠ .never) {f : Fragment} (hf : f.Readable) {value : Nat → α}
    {stops : List Token} (binds : List Value)
    (h : ReadsAt q (boundValue? (binds ++ f.literals))
      (r (boundValue? (binds ++ f.literals)) f.length) f value stops) :
    (f.write q binds).read? r = some (value binds.length) := by
  have hlexemes : Lexing.lexemes? (f.write q binds).text.toList =
      some (f.lexemes q binds.length) := by
    rw [Fragment.write, String.toList_ofList]
    exact lexemes?_chars hq binds.length hf.loose hf.plain
  have hread := h binds.length (resolves_boundValue? binds f.literals) [] (avoids_nil stops)
  rw [List.append_nil] at hread
  rw [read?, hlexemes, Option.bind_eq_bind, Option.bind_some, length_lexemes]
  show ((r (boundValue? (binds ++ f.literals)) f.length (skip (f.lexemes q binds.length))).bind
    fun p => if p.2.isEmpty then some p.1 else none) = _
  rw [hread]
  rfl

end SqlSelect
