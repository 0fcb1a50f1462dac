import Mathlib.Data.List.Forall2
import Mathlib.Tactic.Common

/-!
# Collecting values along a list

`List.mapM` of a partial function gives all values or none.
-/

namespace Text

variable {α β : Type} {f g : α → Option β} {xs : List α} {ys : List β}

theorem mapM_cons_eq_some {x : α} : (x :: xs).mapM f = some ys ↔
    ∃ y ys', f x = some y ∧ xs.mapM f = some ys' ∧ ys = y :: ys' := by
  rw [List.mapM_cons]
  cases f x with
  | none => simp
  | some y =>
      cases xs.mapM f with
      | none => simp
      | some ys' => simp [eq_comm]

theorem mapM_eq_some_iff :
    xs.mapM f = some ys ↔ List.Forall₂ (fun x y => f x = some y) xs ys := by
  induction xs generalizing ys with
  | nil => simp [eq_comm]
  | cons x xs ih =>
      rw [mapM_cons_eq_some, List.forall₂_cons_left_iff]
      constructor
      · rintro ⟨y, ys', hy, hys, rfl⟩
        exact ⟨y, ys', hy, ih.mp hys, rfl⟩
      · rintro ⟨y, ys', hy, hys, rfl⟩
        exact ⟨y, ys', hy, ih.mpr hys, rfl⟩

/-- The values stay when the function changes elsewhere. -/
theorem mapM_congr (hfg : ∀ x ∈ xs, f x = g x) : xs.mapM f = xs.mapM g := by
  induction xs with
  | nil => rfl
  | cons x xs ih =>
      rw [List.mapM_cons, List.mapM_cons, hfg x List.mem_cons_self,
        ih fun x' hx' => hfg x' (List.mem_cons_of_mem _ hx')]

theorem mapM_append_eq_some {xs' : List α} {zs : List β} : (xs ++ xs').mapM f = some zs ↔
    ∃ ys ys', xs.mapM f = some ys ∧ xs'.mapM f = some ys' ∧ zs = ys ++ ys' := by
  rw [List.mapM_append]
  cases xs.mapM f with
  | none => simp
  | some ys =>
      cases xs'.mapM f with
      | none => simp
      | some ys' => simp [eq_comm]

theorem ne_none_of_mapM {f : α → Option β} {xs : List α} {ys : List β}
    (hxs : xs.mapM f = some ys) : ∀ x ∈ xs, f x ≠ none := by
  induction xs generalizing ys with
  | nil => nofun
  | cons x xs ih =>
      obtain ⟨y, ys', hy, hys', -⟩ := mapM_cons_eq_some.mp hxs
      refine List.forall_mem_cons.mpr ⟨?_, ih hys'⟩
      rw [hy]
      exact Option.some_ne_none y

theorem exists_mapM_eq_some {f : α → Option β} {xs : List α} (hxs : ∀ x ∈ xs, f x ≠ none) :
    ∃ ys, xs.mapM f = some ys := by
  induction xs with
  | nil => exact ⟨[], rfl⟩
  | cons x xs ih =>
      obtain ⟨hx, hrest⟩ := List.forall_mem_cons.mp hxs
      obtain ⟨y, hy⟩ := Option.ne_none_iff_exists'.mp hx
      obtain ⟨ys, hys⟩ := ih hrest
      exact ⟨y :: ys, mapM_cons_eq_some.mpr ⟨y, ys, hy, hys, rfl⟩⟩

end Text
