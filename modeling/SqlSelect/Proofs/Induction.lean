import SqlSelect.Query.Condition

/-!
# Induction on expressions, conditions and JSON values

Expressions, conditions and JSON values hold lists of their own kind. The recursor that Lean
generates speaks about those lists with further motives. The principles here speak about their
members instead.
-/

namespace SqlSelect

/-- To prove a property of every expression, prove it of a call from its arguments and of a binary
expression from its operands. -/
@[elab_as_elim, induction_eliminator]
theorem Expr.induction {motive : Expr → Prop}
    (column : ∀ c, motive (.column c))
    (literal : ∀ v, motive (.literal v))
    (call : ∀ function args, (∀ x ∈ args, motive x) → motive (.call function args))
    (binary : ∀ left op right, motive left → motive right → motive (.binary left op right))
    (null : motive .null)
    (star : motive .star) (e : Expr) : motive e :=
  @Expr.rec motive (fun args => ∀ x ∈ args, motive x) column literal call binary null star
    (fun _ hx => absurd hx List.not_mem_nil)
    (fun _ _ hx hxs => List.forall_mem_cons.mpr ⟨hx, hxs⟩) e

/-- To prove a property of every condition, prove it of a group from its members and of a denial
from what it denies. -/
@[elab_as_elim, induction_eliminator]
theorem Condition.induction {motive : Condition → Prop}
    (all : ∀ members, (∀ c ∈ members, motive c) → motive (.all members))
    (any : ∀ members, (∀ c ∈ members, motive c) → motive (.any members))
    (not : ∀ c, motive c → motive (.not c))
    (compare : ∀ left op right, motive (.compare left op right))
    (isNull : ∀ e negated, motive (.isNull e negated))
    (inList : ∀ e list negated, motive (.inList e list negated))
    (like : ∀ e pattern negated ignoreCase, motive (.like e pattern negated ignoreCase))
    (c : Condition) : motive c :=
  @Condition.rec motive (fun members => ∀ d ∈ members, motive d) all any not compare isNull inList
    like
    (fun _ hd => absurd hd List.not_mem_nil)
    (fun _ _ hd hds => List.forall_mem_cons.mpr ⟨hd, hds⟩) c

/-- To prove a property of every JSON value, prove it of an array from its items and of an object
from the values of its members. -/
@[elab_as_elim, induction_eliminator]
theorem Json.induction {motive : Json → Prop}
    (null : motive .null)
    (bool : ∀ b, motive (.bool b))
    (number : ∀ n, motive (.number n))
    (string : ∀ s, motive (.string s))
    (array : ∀ items, (∀ x ∈ items, motive x) → motive (.array items))
    (object : ∀ members, (∀ m ∈ members, motive m.2) → motive (.object members))
    (x : Json) : motive x :=
  @Json.rec motive (fun items => ∀ x ∈ items, motive x) (fun members => ∀ m ∈ members, motive m.2)
    (fun m => motive m.2) null bool number string array object
    (fun _ hx => absurd hx List.not_mem_nil)
    (fun _ _ hx hxs => List.forall_mem_cons.mpr ⟨hx, hxs⟩)
    (fun _ hm => absurd hm List.not_mem_nil)
    (fun _ _ hm hms => List.forall_mem_cons.mpr ⟨hm, hms⟩)
    (fun _ _ hx => hx) x

end SqlSelect
