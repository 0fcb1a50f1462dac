import Fileloft.Effect.Prog
import Mathlib.Data.Nat.Notation

/-!
# Programs whose operations may fail

Each operation of a run meets its fate: it is performed, it is refused
without an effect, or the run stops before it.
-/

inductive Fate where
  | perform
  | refuse
  | stop
  deriving DecidableEq, Repr

namespace Prog

variable {S : Sig} {ε α β σ : Type}

/-- Run with one fate for each operation in turn. A run that is stopped
returns nothing. -/
def runFated (h : Interp S σ) (refusal : (o : S.Op) → S.Ans o) :
    (ℕ → Fate) → Prog S ε α → σ → Option (Except ε α) × σ
  | _, .ret a, s => (some (.ok a), s)
  | _, .fail e, s => (some (.error e), s)
  | fates, .op o k, s =>
    match fates 0 with
    | .perform => runFated h refusal (fun n => fates (n + 1)) (k (h o s).1) (h o s).2
    | .refuse => runFated h refusal (fun n => fates (n + 1)) (k (refusal o)) s
    | .stop => (none, s)

variable {h : Interp S σ} {refusal : (o : S.Op) → S.Ans o} {fates : ℕ → Fate} {s : σ}

@[simp] theorem runFated_ret (a : α) :
    runFated h refusal fates (ret a : Prog S ε α) s = (some (.ok a), s) := rfl

@[simp] theorem runFated_fail (e : ε) :
    runFated h refusal fates (fail e : Prog S ε α) s = (some (.error e), s) := rfl

/-- The same operations, of which some fail without an effect. -/
def failing (h : Interp S σ) (fails : S.Op → Bool) (refusal : (o : S.Op) → S.Ans o) :
    Interp S σ := fun o s => if fails o then (refusal o, s) else h o s

variable {fails : S.Op → Bool}

theorem failing_of_fails {o : S.Op} (ho : fails o = true) (s : σ) :
    failing h fails refusal o s = (refusal o, s) := if_pos ho

/-- The operation after a number of others fails once without an effect. The
state counts down to it. -/
def failingAt (h : Interp S σ) (refusal : (o : S.Op) → S.Ans o) : Interp S (σ × Option ℕ) :=
  fun o s =>
    match s.2 with
    | none => ((h o s.1).1, (h o s.1).2, none)
    | some 0 => (refusal o, s.1, none)
    | some (n + 1) => ((h o s.1).1, (h o s.1).2, some n)

/-- After the failure it is an ordinary run. -/
theorem run_failingAt_none (p : Prog S ε α) (s : σ) :
    run (failingAt h refusal) p (s, none) = ((run h p s).1, (run h p s).2, none) := by
  induction p generalizing s with
  | ret a => rfl
  | fail e => rfl
  | op o k ih => exact ih _ _

/-- A run that is over before the failure is an ordinary run. -/
theorem run_failingAt_of_le {p : Prog S ε α} {s : σ} {n : ℕ} (hle : (trace h p s).length ≤ n) :
    run (failingAt h refusal) p (s, some n) =
      ((run h p s).1, (run h p s).2, some (n - (trace h p s).length)) := by
  induction p generalizing s n with
  | ret a => rfl
  | fail e => rfl
  | op o k ih =>
      rw [trace_op, List.length_cons] at hle ⊢
      obtain ⟨m, rfl⟩ : ∃ m, n = m + 1 := ⟨n - 1, by omega⟩
      rw [Nat.add_sub_add_right]
      exact ih _ (Nat.le_of_succ_le_succ hle)

theorem failing_of_not {o : S.Op} (ho : fails o = false) (s : σ) :
    failing h fails refusal o s = h o s := by
  rw [failing, ho, if_neg Bool.false_ne_true]

end Prog
