import Fileloft.Effect.Pool

/-!
# Programs of smaller operations

Each operation of a program is replaced by a program of its own. Where these
always return, what a program does with its errors is not affected.
-/

namespace Prog

variable {S S' : Sig} {ε α β : Type}

/-- Carry out each operation by a program. -/
def expand (t : (o : S.Op) → Prog S' ε (S.Ans o)) : Prog S ε α → Prog S' ε α
  | .ret a => .ret a
  | .fail e => .fail e
  | .op o k => (t o).bind fun r => expand t (k r)

/-- The program never fails. -/
def Total : Prog S ε α → Prop
  | .ret _ => True
  | .fail _ => False
  | .op _ k => ∀ r, Total (k r)

variable {t : (o : S.Op) → Prog S' ε (S.Ans o)}

theorem expand_bind (p : Prog S ε α) (f : α → Prog S ε β) :
    (p.bind f).expand t = (p.expand t).bind fun a => (f a).expand t := by
  induction p with
  | ret a => rfl
  | fail e => rfl
  | op o k ih =>
      change (t o).bind (fun r => ((k r).bind f).expand t) = ((t o).bind _).bind _
      rw [bind_assoc]
      exact congrArg _ (funext ih)

theorem attempt_bind_of_total {p : Prog S ε α} {f : α → Prog S ε β} (hp : p.Total) :
    (p.bind f).attempt = p.bind fun a => (f a).attempt := by
  induction p with
  | ret a => rfl
  | fail e => exact hp.elim
  | op o k ih =>
      change Prog.op o (fun r => ((k r).bind f).attempt) = Prog.op o _
      exact congrArg _ (funext fun r => ih r (hp r))

theorem expand_attempt (ht : ∀ o, (t o).Total) (p : Prog S ε α) :
    p.attempt.expand t = (p.expand t).attempt := by
  induction p with
  | ret a => rfl
  | fail e => rfl
  | op o k ih =>
      change (t o).bind (fun r => (k r).attempt.expand t) = ((t o).bind _).attempt
      rw [attempt_bind_of_total (ht o)]
      exact congrArg _ (funext ih)

theorem expand_ofExcept (r : Except ε α) : (ofExcept r).expand t = ofExcept r := by
  cases r <;> rfl

/-- Operations that may be used expand into operations that may be used. -/
theorem Uses.expand_of_returns {A : S.Op → Prop} {G : (o : S.Op) → S.Ans o → Prop}
    {A' : S'.Op → Prop} {G' : (o : S'.Op) → S'.Ans o → Prop} {p : Prog S ε α} (hp : p.Uses A G)
    (ht : ∀ o, A o → (t o).Uses A' G') (hr : ∀ o, A o → (t o).Returns G' (G o)) :
    (p.expand t).Uses A' G' := by
  induction p with
  | ret a => trivial
  | fail e => trivial
  | op o k ih => exact (ht o hp.1).bind_of_returns (hr o hp.1) fun r hG => ih r (hp.2 r hG)

/-- The same where any answer may come back. -/
theorem Uses.expand {A : S.Op → Prop} {A' : S'.Op → Prop} {p : Prog S ε α}
    (hp : p.Uses A fun _ _ => True) (ht : ∀ o, A o → (t o).Uses A' fun _ _ => True) :
    (p.expand t).Uses A' fun _ _ => True :=
  hp.expand_of_returns ht fun o _ => (t o).returns_true

end Prog
