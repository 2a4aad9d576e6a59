import SqlSelect.Proofs.Reading.Separated

/-!
# Optional parts

The clauses of a statement and the words behind a sort key may be missing. Each part that is there
stands behind a space and starts with a keyword of its own, so the reader looks at the next token to
know which part it is in front of.
-/

namespace SqlSelect

open Reader Fragment

/-! ## Fragments behind spaces -/

/-- Fragments behind a space each. -/
def trail (fs : List Fragment) : Fragment := fs.flatMap fun f => .space :: f

theorem trail_append (fs gs : List Fragment) : trail (fs ++ gs) = trail fs ++ trail gs :=
  List.flatMap_append

theorem trail_singleton (f : Fragment) : trail [f] = .space :: f :=
  List.append_nil _

theorem spaced_cons (f : Fragment) (fs : List Fragment) : spaced (f :: fs) = f ++ trail fs := by
  induction fs generalizing f with
  | nil => exact (List.append_nil f).symm
  | cons g fs ih =>
    rw [spaced, joined_cons_cons, ← spaced, ih, trail, trail, List.flatMap_cons, List.append_assoc]
    rfl

theorem length_le_trail (fs : List Fragment) : fs.length ≤ (trail fs).length := by
  induction fs with
  | nil => exact Nat.le_refl 0
  | cons f fs ih =>
    rw [trail, List.flatMap_cons, ← trail, List.length_append, List.length_cons, List.length_cons]
    omega

theorem length_le_length_trail {f : Fragment} {fs : List Fragment} (hf : f ∈ fs) :
    f.length ≤ (trail fs).length := by
  induction fs with
  | nil => cases hf
  | cons g fs ih =>
    rw [trail, List.flatMap_cons, ← trail, List.length_append, List.length_cons]
    rcases List.mem_cons.mp hf with rfl | hf
    · omega
    · have hle := ih hf
      omega

section

variable {q : Quoting}

/-- Whether the first of some fragments, if there is one, starts with one of some keywords. -/
def Opens (ks : List Keyword) (fs : List Fragment) : Prop :=
  ∀ f ∈ fs.head?, ∃ k ∈ ks, ∃ g, f = .keyword k :: g

theorem Opens.nil (ks : List Keyword) : Opens ks [] := fun _ hf => by cases hf

theorem Opens.cons {k : Keyword} {ks : List Keyword} (hk : k ∈ ks) (g : Fragment)
    (fs : List Fragment) : Opens ks ((.keyword k :: g) :: fs) := by
  intro f hf
  cases hf
  exact ⟨k, hk, g, rfl⟩

theorem Opens.append {ks ks' : List Keyword} {fs gs : List Fragment} (hf : Opens ks fs)
    (hg : Opens ks' gs) : Opens (ks ++ ks') (fs ++ gs) := by
  intro f hmem
  cases fs with
  | nil =>
    obtain ⟨k, hk, g, rfl⟩ := hg f hmem
    exact ⟨k, List.mem_append_right ks hk, g, rfl⟩
  | cons f' fs =>
    obtain ⟨k, hk, g, rfl⟩ := hf f hmem
    exact ⟨k, List.mem_append_left ks' hk, g, rfl⟩

theorem leads_trail {ks : List Keyword} {fs : List Fragment} (h : Opens ks fs)
    {stops stops' : List Token} (hks : ∀ k ∈ ks, .keyword k ∉ stops) (hsub : stops ⊆ stops') :
    Leads q stops (trail fs) stops' := by
  cases fs with
  | nil => exact leads_nil hsub
  | cons f fs =>
    obtain ⟨k, hk, g, rfl⟩ := h f rfl
    exact leads_space (leads_keyword (hks k hk))

/-- Parts that open with other words than those before would go on with are read behind them. -/
theorem Reads.bind_trail {α β : Type} {lookup : Nat → Option Value} {r : Reader α}
    {k : α → Reader β} {fs gs : List Fragment} {a : α} {b : β} {words : List Keyword}
    {stops stops' : List Token} (hr : Reads q lookup r (trail fs) a stops)
    (hk : Reads q lookup (k a) (trail gs) b stops') (hgs : Opens words gs)
    (hwords : ∀ word ∈ words, .keyword word ∉ stops) (hsub : stops ⊆ stops') :
    Reads q lookup (r >>= k) (trail (fs ++ gs)) b stops' := by
  rw [trail_append]
  exact Reads.bind hr hk (leads_trail hgs hwords hsub)

end

/-! ## Reading a token that means something -/

section

/-- Read the next token if it means something. -/
def Reader.attempt {α : Type} (meaning? : Token → Option α) : Reader (Option α) := fun xs =>
  match (first? xs).bind meaning? with
  | some a => (token xs).map fun r => (some a, r.2)
  | none => some (none, xs)

variable {α : Type} {q : Quoting} {lookup : Nat → Option Value}

theorem attempt_eq {meaning? : Token → Option α} {t : Token} {a : α} (ha : meaning? t = some a)
    (source : List Char) (xs : List Lexeme) :
    Reader.attempt meaning? (⟨source, some t⟩ :: xs) = some (some a, skip xs) := by
  rw [Reader.attempt, first?_token, Option.bind_some, ha]
  rfl

theorem ReadsAt.attempt {β : Type} {meaning? : Token → Option α} {k : Option α → Reader β}
    {p : Piece} {g : Fragment} {t : Token} {a : α} {value : Nat → β} {stops : List Token}
    (hp : p.literal? = none) (ht : ∀ bound, p.token? bound = some t) (ha : meaning? t = some a)
    (hk : ReadsAt q lookup (k (some a)) g value stops) :
    ReadsAt q lookup (Reader.attempt meaning? >>= k) (p :: g) value stops :=
  ReadsAt.step (fun source xs => attempt_eq ha source xs) hp ht hk

/-- A token that means nothing is not read. -/
theorem ReadsAt.not_attempt {β : Type} {meaning? : Token → Option α} {k : Option α → Reader β}
    {g : Fragment} {value : Nat → β} {stops : List Token} (words : List Token)
    (hwords : ∀ t, meaning? t ≠ none → t ∈ words)
    (hk : ReadsAt q lookup (k none) g value stops) (hg : Leads q words g stops) :
    ReadsAt q lookup (Reader.attempt meaning? >>= k) g value stops := by
  intro bound hvalues rest hrest
  have hnone : (first? (skip (g.lexemes q bound ++ rest))).bind meaning? = none := by
    rw [first?_skip, Option.bind_eq_none_iff]
    intro t ht
    by_contra hmeaning
    exact hg bound rest hrest t ht (hwords t hmeaning)
  rw [run_bind, Reader.attempt, hnone]
  exact hk bound hvalues rest hrest

end

end SqlSelect
