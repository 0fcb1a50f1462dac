import Mathlib.Logic.Relation

/-!
# Runs of moves

A list of moves, each of which may be refused, as a run of the relation
that its moves make.
-/

namespace Fileloft

variable {S M : Type}

/-- The state after a list of moves. -/
def afterMoves (step : S → M → Option S) (ms : List M) (s : S) : Option S := ms.foldlM step s

theorem reflTransGen_of_afterMoves {step : S → M → Option S} {r : S → S → Prop}
    (hstep : ∀ s m s', step s m = some s' → r s s') {ms : List M} {s s' : S}
    (h : afterMoves step ms s = some s') : Relation.ReflTransGen r s s' := by
  induction ms generalizing s with
  | nil => exact Option.some.inj h ▸ .refl
  | cons m ms ih =>
      obtain ⟨t, hmove, hrest⟩ := Option.bind_eq_some_iff.mp h
      exact .head (hstep s m t hmove) (ih hrest)

end Fileloft
