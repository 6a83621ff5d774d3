import Mathlib.Data.List.Basic
import Mathlib.Data.Option.Basic
import Mathlib.Tactic.Common

/-! # Blocks of lines

A scanner goes over lines and knows at most one open block. A line opens a block where none is open, and may close an open
one. Two scanners are compared where the second opens and closes blocks wherever the first does.
-/

namespace Alexandria.BlockScan
set_option autoImplicit false

/-- What opens a block, and what closes an open one. -/
structure Scanner (ℓ φ : Type) where
  opens : ℓ → Option φ
  closes : φ → ℓ → Bool

/-- What a line is to the blocks. -/
inductive Role
  | outside
  | opening
  | inside
  | closing
deriving DecidableEq

/-- The line is inside a block or delimits one. -/
def Role.covered : Role → Bool
  | .outside => false
  | _ => true

section Scan
variable {ℓ κ φ : Type} (A : Scanner ℓ φ)

def Scanner.role (block : Option φ) (line : ℓ) : Role :=
  match block with
  | none => if (A.opens line).isSome then .opening else .outside
  | some active => if A.closes active line then .closing else .inside

def Scanner.next (block : Option φ) (line : ℓ) : Option φ :=
  match block with
  | none => A.opens line
  | some active => if A.closes active line then none else some active

/-- The roles of lines, before the first of which this block is open. -/
def Scanner.roles (block : Option φ) : List ℓ → List Role
  | [] => []
  | line :: rest => A.role block line :: Scanner.roles (A.next block line) rest

/-- The scanner of lines that carry its lines. -/
def Scanner.comap (f : κ → ℓ) : Scanner κ φ := ⟨fun line => A.opens (f line), fun active line => A.closes active (f line)⟩

theorem Scanner.roles_comap (f : κ → ℓ) (block : Option φ) (lines : List κ) :
    (A.comap f).roles block lines = A.roles block (lines.map f) := by
  induction lines generalizing block with
  | nil => rfl
  | cons line rest ih =>
    rw [Scanner.roles, ih, List.map_cons, Scanner.roles]
    cases block <;> rfl

end Scan

section Comparison
variable {ℓ φ ψ : Type} {A : Scanner ℓ φ} {B : Scanner ℓ ψ} {valid : φ → Prop} {g : φ → ψ}

/-- The second scanner opens and closes blocks where the first does; `g` is what it takes a block for. -/
structure Follows (A : Scanner ℓ φ) (B : Scanner ℓ ψ) (valid : φ → Prop) (g : φ → ψ) : Prop where
  opened : ∀ line block, A.opens line = some block → valid block
  opens : ∀ line block, A.opens line = some block → B.opens line = some (g block)
  closes : ∀ block line, valid block → A.closes block line = true → B.closes (g block) line = true

/-- Only the second scanner opens a block with the line, or closes the open one. -/
def Alone (A : Scanner ℓ φ) (B : Scanner ℓ ψ) (g : φ → ψ) (block : Option φ) (line : ℓ) : Prop :=
  match block with
  | none => A.opens line = none ∧ B.opens line ≠ none
  | some active => A.closes active line = false ∧ B.closes (g active) line = true

/-- Nowhere on the way of the first scanner does the second one act alone. -/
def InStep (A : Scanner ℓ φ) (B : Scanner ℓ ψ) (g : φ → ψ) (block : Option φ) : List ℓ → Prop
  | [] => True
  | line :: rest => ¬ Alone A B g block line ∧ InStep A B g (A.next block line) rest

theorem Follows.role_eq_iff (h : Follows A B valid g) {block : Option φ} (hblock : ∀ active ∈ block, valid active)
    (line : ℓ) : B.role (block.map g) line = A.role block line ↔ ¬ Alone A B g block line := by
  cases block with
  | none =>
    simp only [Option.map_none, Scanner.role, Alone]
    cases hopens : A.opens line with
    | none => cases B.opens line <;> simp
    | some opened => simp [h.opens line opened hopens]
  | some active =>
    simp only [Option.map_some, Scanner.role, Alone]
    cases hcloses : A.closes active line with
    | false => cases B.closes (g active) line <;> simp
    | true => simp [h.closes active line (hblock active rfl) hcloses]

theorem Follows.next_eq (h : Follows A B valid g) {block : Option φ} (hblock : ∀ active ∈ block, valid active) {line : ℓ}
    (htogether : ¬ Alone A B g block line) : B.next (block.map g) line = (A.next block line).map g := by
  cases block with
  | none =>
    simp only [Option.map_none, Scanner.next]
    cases hopens : A.opens line with
    | none =>
      by_contra hopened
      exact htogether ⟨hopens, hopened⟩
    | some opened => exact h.opens line opened hopens
  | some active =>
    simp only [Option.map_some, Scanner.next]
    cases hcloses : A.closes active line with
    | false =>
      have hcloses' : B.closes (g active) line = false := by
        by_contra hclosed
        exact htogether ⟨hcloses, by simpa using hclosed⟩
      rw [hcloses']
      rfl
    | true =>
      rw [h.closes active line (hblock active rfl) hcloses]
      rfl

theorem Follows.next_valid (h : Follows A B valid g) {block : Option φ} (hblock : ∀ active ∈ block, valid active)
    (line : ℓ) : ∀ active ∈ A.next block line, valid active := by
  cases block with
  | none => exact fun active hopened => h.opened line active hopened
  | some active =>
    cases hcloses : A.closes active line with
    | false => simpa [Scanner.next, hcloses] using hblock
    | true => simp [Scanner.next, hcloses]

/-- The two scanners give every line the same role just where the second never acts alone. -/
theorem Follows.roles_eq_iff (h : Follows A B valid g) {block : Option φ} (hblock : ∀ active ∈ block, valid active)
    (lines : List ℓ) : B.roles (block.map g) lines = A.roles block lines ↔ InStep A B g block lines := by
  induction lines generalizing block with
  | nil => exact iff_of_true rfl trivial
  | cons line rest ih =>
    rw [Scanner.roles, Scanner.roles, List.cons.injEq, h.role_eq_iff hblock, InStep]
    refine and_congr_right fun htogether => ?_
    rw [h.next_eq hblock htogether]
    exact ih (h.next_valid hblock line)

end Comparison

end Alexandria.BlockScan
