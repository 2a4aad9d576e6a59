import SqlSelect.Proofs.Reading.Reader

/-!
# Reading lists

The items of a list have commas or keywords between them. After each item the reader looks for the
separator, so a list ends where no separator follows.
-/

namespace SqlSelect

open Reader Fragment

namespace Reader

variable {α : Type}

/-- Go on with a list behind its first item, if a separator follows. -/
def continued (separator : Token) (others : Reader (List α)) (a : α) : Reader (List α) := do
  match ← accept separator with
  | true =>
    let as ← others
    return a :: as
  | false => return [a]

/-- Read at most `limit` items with separators between them. -/
def separated (separator : Token) (r : Reader α) : Nat → Reader (List α)
  | 0 => failure
  | limit + 1 => r >>= continued separator (separated separator r limit)

end Reader

variable {α β : Type} {q : Quoting} {lookup : Nat → Option Value}

/-- What separates the items of a list: one token, a space behind it, and perhaps one before. -/
def IsSeparator (t : Token) (separator : Fragment) : Prop :=
  ∃ p : Piece, p.literal? = none ∧ (∀ bound, p.token? bound = some t) ∧
    (separator = [p, .space] ∨ separator = [.space, p, .space])

theorem isSeparator_comma : IsSeparator (.symbol .comma) [.symbol .comma, .space] :=
  ⟨.symbol .comma, rfl, fun _ => rfl, .inl rfl⟩

theorem isSeparator_keyword (k : Keyword) :
    IsSeparator (.keyword k) [.space, .keyword k, .space] :=
  ⟨.keyword k, rfl, fun _ => rfl, .inr rfl⟩

/-- The values of items one after another, where the value of an item may depend on the number of
values bound before. -/
def valuesAt (fragment : β → Fragment) (value : β → Nat → α) : Nat → List β → List α
  | _, [] => []
  | bound, x :: xs =>
    value x bound :: valuesAt fragment value (bound + (fragment x).literals.length) xs

theorem valuesAt_const (fragment : β → Fragment) (value : β → α) (bound : Nat) (xs : List β) :
    valuesAt fragment (fun x _ => value x) bound xs = xs.map value := by
  induction xs generalizing bound with
  | nil => rfl
  | cons x xs ih => rw [valuesAt, ih, List.map_cons]

/-- The last item of a list is read if the separator does not follow. -/
theorem ReadsAt.separated_one {r : Reader α} {f : Fragment} {value : Nat → α}
    {stops : List Token} (h : ReadsAt q lookup r f value stops) (separator : Token) (limit : Nat) :
    ReadsAt q lookup (Reader.separated separator r (limit + 1)) f (fun bound => [value bound])
      (separator :: stops) := by
  have hstop : [separator] ⊆ separator :: stops :=
    List.cons_subset.mpr ⟨List.mem_cons_self, List.nil_subset _⟩
  have hall := ReadsAt.bind (k := continued separator (Reader.separated separator r limit))
    (b := fun bound _ => [value bound]) h
    (fun bound => ReadsAt.not_accept ReadsAt.pure (leads_nil hstop))
    (leads_nil (List.subset_cons_self separator stops))
  rw [List.append_nil] at hall
  exact hall

/-- An item is read in front of a list of items. -/
theorem ReadsAt.separated_cons {r : Reader α} {f g separator : Fragment} {t : Token}
    {value : Nat → α} {values : Nat → List α} {limit : Nat} {stops stops' : List Token}
    (h : ReadsAt q lookup r f value stops) (ht : IsSeparator t separator) (hstop : t ∉ stops)
    (hg : ReadsAt q lookup (Reader.separated t r limit) g values stops') :
    ReadsAt q lookup (Reader.separated t r (limit + 1)) (f ++ separator ++ g)
      (fun bound => value bound :: values (bound + f.literals.length)) stops' := by
  obtain ⟨p, hp, htoken, hseparator⟩ := ht
  have hlead : Leads q stops (p :: .space :: g) stops' :=
    leads_token fun bound => ⟨t, htoken bound, hstop⟩
  have hrest : ∀ bound, ReadsAt q lookup
      (continued t (Reader.separated t r limit) (value bound)) (p :: .space :: g)
      (fun bound' => value bound :: values bound') stops' :=
    fun bound => ReadsAt.accept hp htoken (hg.space.map (value bound :: ·))
  rw [List.append_assoc]
  rcases hseparator with rfl | rfl
  · exact ReadsAt.bind h hrest hlead
  · exact ReadsAt.bind h (fun bound => (hrest bound).space) (leads_space hlead)

/-- Items with separators between them are read one by one. -/
theorem readsAt_separated {r : Reader α} {fragment : β → Fragment} {value : β → Nat → α}
    {t : Token} {separator : Fragment} {stops : List Token} (ht : IsSeparator t separator)
    (hstop : t ∉ stops) {limit : Nat} {xs : List β} (hnil : xs ≠ []) (hlimit : xs.length ≤ limit)
    (h : ∀ x ∈ xs, ReadsAt q lookup r (fragment x) (value x) stops) :
    ReadsAt q lookup (Reader.separated t r limit) (joined separator (xs.map fragment))
      (fun bound => valuesAt fragment value bound xs) (t :: stops) := by
  induction xs generalizing limit with
  | nil => exact absurd rfl hnil
  | cons x xs ih =>
    obtain ⟨limit, rfl⟩ : ∃ n, limit = n + 1 :=
      Nat.exists_eq_succ_of_ne_zero (Nat.ne_of_gt (Nat.lt_of_lt_of_le (Nat.succ_pos _) hlimit))
    have hx := h x List.mem_cons_self
    -- the last item has no separator behind it, and the others have
    cases xs with
    | nil => exact hx.separated_one t limit
    | cons y ys =>
      have hrest := ih (List.cons_ne_nil y ys) (Nat.le_of_succ_le_succ hlimit)
        fun z hz => h z (List.mem_cons_of_mem x hz)
      exact hx.separated_cons ht hstop hrest

theorem reads_separated {r : Reader α} {fragment : β → Fragment} {value : β → α}
    {t : Token} {separator : Fragment} {stops : List Token} (ht : IsSeparator t separator)
    (hstop : t ∉ stops) {limit : Nat} {xs : List β} (hnil : xs ≠ []) (hlimit : xs.length ≤ limit)
    (h : ∀ x ∈ xs, Reads q lookup r (fragment x) (value x) stops) :
    Reads q lookup (Reader.separated t r limit) (joined separator (xs.map fragment))
      (xs.map value) (t :: stops) := by
  have hall := readsAt_separated ht hstop hnil hlimit h
  simp only [valuesAt_const] at hall
  exact hall

/-- A list with separators has no more items than pieces, and one. -/
theorem length_le_length_joined {t : Token} {separator : Fragment} (ht : IsSeparator t separator)
    (fs : List Fragment) : fs.length ≤ (joined separator fs).length + 1 := by
  have hpos : 1 ≤ separator.length := by
    obtain ⟨p, -, -, rfl | rfl⟩ := ht <;> exact Nat.succ_pos _
  induction fs with
  | nil => exact Nat.zero_le _
  | cons f fs ih =>
    cases fs with
    | nil => exact Nat.succ_pos _
    | cons g fs =>
      rw [joined_cons_cons, List.length_append, List.length_append, List.length_cons]
      omega

theorem Fragment.length_parenthesised (f : Fragment) :
    (Fragment.parenthesised f).length = f.length + 2 := by
  rw [Fragment.parenthesised, List.length_cons, List.length_append, List.length_singleton]

/-- Joined fragments start with the first of them. -/
theorem exists_joined_cons_eq_append (separator f : Fragment) (fs : List Fragment) :
    ∃ g, joined separator (f :: fs) = f ++ g := by
  cases fs with
  | nil => exact ⟨[], (List.append_nil f).symm⟩
  | cons g fs => exact ⟨separator ++ joined separator (g :: fs), List.append_assoc _ _ _⟩

/-- Each of the fragments joined is no longer than all of them. -/
theorem length_le_of_mem_joined (separator : Fragment) {f : Fragment} {fs : List Fragment}
    (hf : f ∈ fs) :
    f.length ≤ (joined separator fs).length := by
  induction fs with
  | nil => cases hf
  | cons g fs ih =>
    cases fs with
    | nil =>
      cases List.mem_singleton.mp hf
      exact Nat.le_refl _
    | cons g' fs =>
      rw [joined_cons_cons, List.length_append, List.length_append]
      rcases List.mem_cons.mp hf with rfl | hf
      · omega
      · have hle := ih hf
        omega

/-- A bound on the length of joined fragments bounds their number, up to one, and their lengths. -/
theorem length_items_le {t : Token} {separator : Fragment} (ht : IsSeparator t separator)
    {fragment : β → Fragment} {xs : List β} {limit : Nat}
    (h : (joined separator (xs.map fragment)).length ≤ limit) :
    xs.length ≤ limit + 1 ∧ ∀ x ∈ xs, (fragment x).length ≤ limit := by
  constructor
  · have hcount := length_le_length_joined ht (xs.map fragment)
    rw [List.length_map] at hcount
    omega
  · intro x hx
    exact Nat.le_trans (length_le_of_mem_joined separator (List.mem_map_of_mem hx)) h

end SqlSelect
