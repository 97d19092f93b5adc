import Mathlib.Data.List.Basic

/-!
Chains of blocks that name their parents. The rows of a chain are stored in order; each row
is made from the rows before it, from a block and from the name of the block. When a name
belongs to at most one block and the name that stands for no parent to none, the name of the
last row determines all rows.
-/
namespace Monzero.HashChain

variable {Name Block Row : Type*}

/-- How rows are made of blocks. -/
structure Format (Name Block Row : Type*) where
  nameOf : Row → Name
  parent : Block → Name
  /-- The parent of the first block. -/
  root : Name
  row : List Row → Name → Block → Row
  nameOf_row : ∀ rows name b, nameOf (row rows name b) = name

def Format.top (F : Format Name Block Row) (rows : List Row) : Name :=
  (rows.getLast?.map F.nameOf).getD F.root

/-- Each block follows the one before it and stands under its own name. -/
inductive Chain (F : Format Name Block Row) (blockOf : Name → Option Block) : List Row → Prop
  | nil : Chain F blockOf []
  | add {rows : List Row} {b : Block} {name : Name} (front : Chain F blockOf rows)
      (named : blockOf name = some b) (parent : F.parent b = F.top rows) :
      Chain F blockOf (rows ++ [F.row rows name b])

variable {F : Format Name Block Row} {blockOf : Name → Option Block} {rows : List Row}

theorem top_concat (r : Row) : F.top (rows ++ [r]) = F.nameOf r := by
  rw [Format.top, List.getLast?_concat]
  rfl

theorem Chain.take (h : Chain F blockOf rows) (n : ℕ) : Chain F blockOf (rows.take n) := by
  induction h with
  | nil =>
    rw [List.take_nil]
    exact .nil
  | @add rows b name front named parent ih =>
    rcases Nat.lt_or_ge rows.length n with hlt | hge
    · rw [List.take_of_length_le (by rw [List.length_append, List.length_singleton]; omega)]
      exact .add front named parent
    · rw [List.take_append_of_le_length hge]
      exact ih

variable (hroot : blockOf F.root = none)

include hroot

theorem Chain.top_ne_root (h : Chain F blockOf rows) (hne : rows ≠ []) : F.top rows ≠ F.root := by
  cases h with
  | nil => exact absurd rfl hne
  | add front named parent =>
    rw [top_concat, F.nameOf_row]
    intro hname
    rw [hname, hroot] at named
    cases named

theorem Chain.unique {other : List Row} (h : Chain F blockOf rows) (h' : Chain F blockOf other)
    (htop : F.top rows = F.top other) : rows = other := by
  induction h generalizing other with
  | nil =>
    by_contra hne
    exact h'.top_ne_root hroot (Ne.symm hne) htop.symm
  | @add rows b name front named parent ih =>
    cases h' with
    | nil =>
      exact absurd htop ((Chain.add front named parent).top_ne_root hroot
        (List.append_ne_nil_of_right_ne_nil _ (List.cons_ne_nil _ _)))
    | @add rows' b' name' front' named' parent' =>
      rw [top_concat, top_concat, F.nameOf_row, F.nameOf_row] at htop
      rw [htop, named', Option.some.injEq] at named
      rw [ih front' (by rw [← parent, ← named, parent']), htop, named]

end Monzero.HashChain
