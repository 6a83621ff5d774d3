import Mathlib.Data.Option.Basic
import Mathlib.Tactic.Common

/-! # Three-valued conditions

A condition on columns that may be null is true, false or unknown. Comparisons with null are unknown, `any` and `all` are the
strong disjunction and conjunction, and a row passes a condition that is true.
-/

namespace Alexandria.Ternary
set_option autoImplicit false

/-- `none` is unknown. -/
abbrev Truth := Option Bool

def or : Truth → Truth → Truth
  | some true, _ => some true
  | _, some true => some true
  | some false, some false => some false
  | _, _ => none

def and : Truth → Truth → Truth
  | some false, _ => some false
  | _, some false => some false
  | some true, some true => some true
  | _, _ => none

def any (conditions : List Truth) : Truth := conditions.foldr or (some false)

def all (conditions : List Truth) : Truth := conditions.foldr and (some true)

def passes (condition : Truth) : Bool := condition = some true

section Columns
variable {α : Type*} [DecidableEq α]

def isNull (column : Option α) : Truth := some column.isNone

def isNotNull (column : Option α) : Truth := some column.isSome

def eq (column : Option α) (value : α) : Truth := column.map fun a => a = value

def ne (column : Option α) (value : α) : Truth := column.map fun a => a ≠ value

variable {column : Option α} {value : α}

omit [DecidableEq α] in
@[simp] theorem passes_isNull : passes (isNull column) = true ↔ column = none := by simp [passes, isNull]

omit [DecidableEq α] in
@[simp] theorem passes_isNotNull : passes (isNotNull column) = true ↔ column.isSome = true := by simp [passes, isNotNull]

@[simp] theorem passes_eq : passes (eq column value) = true ↔ column = some value := by simp [passes, eq]

/-- Null differs from nothing. -/
@[simp] theorem passes_ne : passes (ne column value) = true ↔ ∃ a, column = some a ∧ a ≠ value := by simp [passes, ne]

end Columns

theorem passes_or (a b : Truth) : passes (or a b) = true ↔ passes a = true ∨ passes b = true := by
  rcases a with _ | _ | _ <;> rcases b with _ | _ | _ <;> simp [passes, or]

theorem passes_and (a b : Truth) : passes (and a b) = true ↔ passes a = true ∧ passes b = true := by
  rcases a with _ | _ | _ <;> rcases b with _ | _ | _ <;> simp [passes, and]

theorem passes_any (conditions : List Truth) : passes (any conditions) = true ↔ ∃ c ∈ conditions, passes c = true := by
  induction conditions with
  | nil => simp [any, passes]
  | cons c cs ih =>
    show passes (or c (any cs)) = true ↔ _
    simp [passes_or, ih]

theorem passes_all (conditions : List Truth) : passes (all conditions) = true ↔ ∀ c ∈ conditions, passes c = true := by
  induction conditions with
  | nil => simp [all, passes]
  | cons c cs ih =>
    show passes (and c (all cs)) = true ↔ _
    rw [passes_and, ih, List.forall_mem_cons]

end Alexandria.Ternary
