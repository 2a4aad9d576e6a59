import SqlSelect.Proofs.Reading.Separated

/-!
# Refusing fragments

Where a reader has a choice, it takes the first way that does not fail. That a reader fails on a
fragment is shown step by step: it fails at the first token, or after what it reads at first.
-/

namespace SqlSelect

open Reader Fragment

variable {α β : Type} {q : Quoting} {lookup : Nat → Option Value}

/-- The reader does not read a fragment, if the next token behind it is not one of `stops`. -/
def Fails (q : Quoting) (lookup : Nat → Option Value) (r : Reader α) (f : Fragment)
    (stops : List Token) : Prop :=
  ∀ bound, Resolves lookup bound f.literals → ∀ rest, Avoids stops rest →
    r (skip (f.lexemes q bound ++ rest)) = none

theorem fails_failure (f : Fragment) (stops : List Token) :
    Fails q lookup (failure : Reader α) f stops :=
  fun _ _ _ _ => rfl

theorem Fails.space {r : Reader α} {f : Fragment} {stops : List Token}
    (h : Fails q lookup r f stops) : Fails q lookup r (.space :: f) stops :=
  fun bound hvalues rest hrest => h bound hvalues rest hrest

/-- What is refused whatever follows is refused in front of any fragment. -/
theorem Fails.append {r : Reader α} {f : Fragment} (h : Fails q lookup r f []) (g : Fragment)
    (stops : List Token) : Fails q lookup r (f ++ g) stops := by
  intro bound hvalues rest _
  rw [literals_append] at hvalues
  rw [lexemes_append, List.append_assoc]
  exact h bound hvalues.append_left _ fun _ _ => List.not_mem_nil

theorem Fails.bind {r : Reader α} {f : Fragment} {stops : List Token}
    (h : Fails q lookup r f stops) (k : α → Reader β) : Fails q lookup (r >>= k) f stops := by
  intro bound hvalues rest hrest
  rw [run_bind, h bound hvalues rest hrest]
  rfl

/-- A reader that fails at its second step fails, whatever it would do afterwards. -/
theorem Fails.bind_bind {γ : Type} {r : Reader α} {r' : Reader β} {f : Fragment}
    {stops : List Token} (h : Fails q lookup (r >>= fun _ => r') f stops)
    (k : α → β → Reader γ) : Fails q lookup (r >>= fun a => r' >>= k a) f stops := by
  intro bound hvalues rest hrest
  have hnone := h bound hvalues rest hrest
  rw [run_bind] at hnone ⊢
  cases hr : r (skip (f.lexemes q bound ++ rest)) with
  | none => rfl
  | some p =>
    -- the first step succeeds, so it is the second one that fails
    rw [hr] at hnone
    show (r' >>= k p.1) p.2 = none
    rw [run_bind, show r' p.2 = none from hnone]
    rfl

/-- A token that is taken first does not help if the rest is refused. -/
theorem Fails.step {r : Reader α} {k : α → Reader β} {p : Piece} {g : Fragment} {t : Token}
    {a : α} {stops : List Token} (hr : ∀ source xs, r (⟨source, some t⟩ :: xs) = some (a, skip xs))
    (hp : p.literal? = none) (ht : ∀ bound, p.token? bound = some t)
    (hk : Fails q lookup (k a) g stops) : Fails q lookup (r >>= k) (p :: g) stops := by
  intro bound hvalues rest hrest
  rw [literals_cons, hp] at hvalues
  rw [lexemes, hp, ht, List.cons_append, skip_token, run_bind, hr]
  exact hk bound hvalues rest hrest

theorem Fails.token {k : Token → Reader β} {p : Piece} {g : Fragment} {t : Token}
    {stops : List Token} (hp : p.literal? = none) (ht : ∀ bound, p.token? bound = some t)
    (hk : Fails q lookup (k t) g stops) :
    Fails q lookup (Reader.token >>= k) (p :: g) stops :=
  Fails.step (fun source xs => token_eq source t xs) hp ht hk

/-- What is read first does not help if the rest is refused. -/
theorem Reads.bind_fails {r : Reader α} {k : α → Reader β} {f g : Fragment} {a : α}
    {stops stops' : List Token} (hr : Reads q lookup r f a stops)
    (hk : Fails q lookup (k a) g stops') (hg : Leads q stops g stops') :
    Fails q lookup (r >>= k) (f ++ g) stops' := by
  intro bound hvalues rest hrest
  rw [literals_append] at hvalues
  rw [run_bind, lexemes_append, List.append_assoc,
    hr bound hvalues.append_left _ (hg _ rest hrest)]
  exact hk _ hvalues.append_right rest hrest

/-- A token that must come and does not. -/
theorem fails_expect {t : Token} {g : Fragment} {stops : List Token} (hg : Leads q [t] g stops) :
    Fails q lookup (Reader.expect t) g stops := by
  intro bound _ rest hrest
  refine expect_of_ne ?_
  rw [first?_skip]
  exact (hg bound rest hrest).ne (List.mem_singleton_self t)

theorem Fails.expect {k : Unit → Reader β} {p : Piece} {g : Fragment} {t : Token}
    {stops : List Token} (hp : p.literal? = none) (ht : ∀ bound, p.token? bound = some t)
    (hk : Fails q lookup (k ()) g stops) :
    Fails q lookup (Reader.expect t >>= k) (p :: g) stops :=
  Fails.step (fun source xs => expect_eq source t xs) hp ht hk

/-- A name that must come and does not. -/
theorem fails_name {p : Piece} (hp : ∀ bound, ∃ t, p.token? bound = some t ∧ t.isName = false)
    (g : Fragment) (stops : List Token) : Fails q lookup Reader.name (p :: g) stops := by
  intro bound _ rest _
  obtain ⟨t, ht, hname⟩ := hp bound
  rw [lexemes, ht, List.cons_append, skip_token, Reader.name, run_bind, token_eq]
  cases t with
  | name word => cases hname
  | _ => rfl

/-- Where the first reader fails, the second one is used. -/
theorem ReadsAt.orElse {r r' : Reader α} {f : Fragment} {value : Nat → α} {stops : List Token}
    (hr : Fails q lookup r f stops) (h : ReadsAt q lookup r' f value stops) :
    ReadsAt q lookup (r <|> r') f value stops := by
  intro bound hvalues rest hrest
  rw [run_orElse, hr bound hvalues rest hrest, Option.none_or]
  exact h bound hvalues rest hrest

theorem ReadsAt.orElse_left {r : Reader α} {f : Fragment} {value : Nat → α} {stops : List Token}
    (h : ReadsAt q lookup r f value stops) (r' : Reader α) :
    ReadsAt q lookup (r <|> r') f value stops := by
  intro bound hvalues rest hrest
  rw [run_orElse, h bound hvalues rest hrest]
  rfl

end SqlSelect
