import Fileloft.Effect.Prog

/-!
# What holds after a run

A statement about a run speaks of its result, of the state it leaves and of
the operations it performed, each with its answer.
-/

/-- The operations of a run, each with its answer. -/
abbrev Calls (S : Sig) : Type := List ((o : S.Op) × S.Ans o)

namespace Prog

variable {S : Sig} {ε α β σ : Type} {h : Interp S σ} {s : σ}

/-- What may be said after a run. -/
abbrev Post (S : Sig) (ε α σ : Type) : Type := Except ε α → σ → Calls S → Prop

def After (h : Interp S σ) (p : Prog S ε α) (s : σ) (Q : Post S ε α σ) : Prop :=
  Q (run h p s).1 (run h p s).2 (trace h p s)

namespace After

variable {P Q : Post S ε α σ} {R : Post S ε β σ} {p : Prog S ε α} {f : α → Prog S ε β}

theorem ret {a : α} (hQ : Q (.ok a) s []) : After h (.ret a) s Q := hQ

theorem fail {e : ε} (hQ : Q (.error e) s []) : After h (.fail e) s Q := hQ

theorem op {o : S.Op} {k : S.Ans o → Prog S ε α}
    (hk : After h (k (h o s).1) (h o s).2 fun r s' l => Q r s' (⟨o, (h o s).1⟩ :: l)) :
    After h (.op o k) s Q := hk

theorem ofExcept {r : Except ε α} (hQ : Q r s []) : After h (.ofExcept r) s Q := by
  cases r with
  | ok a => exact hQ
  | error e => exact hQ

theorem mono (hp : After h p s P) (hPQ : ∀ r s' l, P r s' l → Q r s' l) : After h p s Q :=
  hPQ _ _ _ hp

theorem and (hP : After h p s P) (hQ : After h p s Q) :
    After h p s fun r s' l => P r s' l ∧ Q r s' l := ⟨hP, hQ⟩

/-- The rule for a sequence. -/
theorem bind (hp : After h p s P)
    (hok : ∀ a s' l, P (.ok a) s' l → After h (f a) s' fun r s'' m => R r s'' (l ++ m))
    (herror : ∀ e s' l, P (.error e) s' l → R (.error e) s' l) : After h (p.bind f) s R := by
  unfold After at hp ⊢
  rcases hrun : run h p s with ⟨e | a, s'⟩
  · rw [run_bind_error hrun, trace_bind_error hrun]
    rw [hrun] at hp
    exact herror e s' _ hp
  · rw [run_bind_ok hrun, trace_bind_ok hrun]
    rw [hrun] at hp
    exact hok a s' _ hp

/-- The rule for what follows a program whether it fails or not. -/
theorem bind_attempt {f : Except ε α → Prog S ε β} (hp : After h p s P)
    (hf : ∀ r s' l, P r s' l → After h (f r) s' fun r s'' m => R r s'' (l ++ m)) :
    After h (p.attempt.bind f) s R := by
  have hrun := run_bind_ok (f := f) (run_attempt h p s)
  have htrace := trace_bind_ok (f := f) (run_attempt h p s)
  unfold After at hp ⊢
  rw [hrun, htrace, trace_attempt]
  exact hf _ _ _ hp

/-- What a program can perform is all that a run performed. -/
theorem of_uses {A : S.Op → Prop} (hp : p.Uses A fun _ _ => True) :
    After h p s fun _ _ l => ∀ c ∈ l, A c.1 := by
  rintro ⟨o, r⟩ hc
  exact (hp.of_mem_trace (fun _ _ => trivial) hc).1

end After

end Prog
