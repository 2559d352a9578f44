import Mathlib.Logic.Function.Basic
import Mathlib.Data.Option.Basic

namespace GaoFS.Library.RootedTree

variable {P : Type*} (root : P) (parent : P → P)

/-- Nodes by name, a directory being `true`. The root is a directory, and so is
the parent of every other node. -/
structure Rooted (kind : P → Option Bool) : Prop where
  root_dir : kind root = some true
  parent_dir : ∀ p, p ≠ root → kind p ≠ none → kind (parent p) = some true

variable {root parent} {kind : P → Option Bool} [DecidableEq P]

/-- A new node below a directory. -/
theorem Rooted.add (h : Rooted root parent kind) {p : P} (hp : kind p = none)
    (hparent : kind (parent p) = some true) (b : Bool) :
    Rooted root parent (Function.update kind p (some b)) where
  root_dir := by
    have hne : root ≠ p := fun he => by
      rw [← he, h.root_dir] at hp
      cases hp
    rw [Function.update_of_ne hne, h.root_dir]
  parent_dir := by
    have hkeep : ∀ q, kind q = some true → Function.update kind p (some b) q = some true := by
      intro q hq
      have hne : q ≠ p := fun he => by
        rw [he, hp] at hq
        cases hq
      rw [Function.update_of_ne hne, hq]
    intro q hroot hq
    by_cases hqp : q = p
    · rw [hqp]
      exact hkeep _ hparent
    · rw [Function.update_of_ne hqp] at hq
      exact hkeep _ (h.parent_dir q hroot hq)

/-- A node that is not the parent of another can go, if it is not the root. -/
theorem Rooted.remove (h : Rooted root parent kind) {p : P} (hroot : p ≠ root)
    (hleaf : ∀ q, q ≠ root → kind q ≠ none → parent q ≠ p) :
    Rooted root parent (Function.update kind p none) where
  root_dir := by rw [Function.update_of_ne hroot.symm, h.root_dir]
  parent_dir := by
    intro q hq hkind
    by_cases hqp : q = p
    · rw [hqp, Function.update_self] at hkind
      exact absurd rfl hkind
    · rw [Function.update_of_ne hqp] at hkind
      rw [Function.update_of_ne (hleaf q hq hkind), h.parent_dir q hq hkind]

/-- What is not a directory is nobody's parent. -/
theorem Rooted.remove_file (h : Rooted root parent kind) {p : P} (hp : kind p = some false) :
    Rooted root parent (Function.update kind p none) := by
  apply h.remove
  · intro he
    rw [he, h.root_dir] at hp
    cases hp
  · intro q hq hkind he
    have hdir := h.parent_dir q hq hkind
    rw [he, hp] at hdir
    cases hdir

end GaoFS.Library.RootedTree
