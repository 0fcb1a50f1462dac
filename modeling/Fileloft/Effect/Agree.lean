import Fileloft.Effect.Prog

/-!
# Two programs side by side

Two programs agree when from related states they return the same and leave
related states. The rules follow the constructions of programs, so the two
may differ in the operations that the relation hides.
-/

namespace Prog

variable {S : Sig} {ε α β σ τ : Type}

/-- From related states `p` and `q` return the same, and what they return
satisfies `Q`. -/
def Agree (h : Interp S σ) (g : Interp S τ) (R : σ → τ → Prop) (Q : α → Prop)
    (p q : Prog S ε α) : Prop :=
  ∀ s t, R s t → (run h p s).1 = (run g q t).1 ∧ R (run h p s).2 (run g q t).2 ∧
    ∀ a, (run h p s).1 = .ok a → Q a

section Rules

variable {h : Interp S σ} {g : Interp S τ} {R : σ → τ → Prop} {P : α → Prop} {Q : β → Prop}

theorem Agree.ret {a : α} (ha : P a) :
    Agree h g R P (ret a : Prog S ε α) (Prog.ret a) := by
  intro s t hst
  refine ⟨rfl, hst, fun a' hok => ?_⟩
  obtain rfl := Except.ok.inj hok
  exact ha

theorem Agree.fail (e : ε) : Agree h g R P (fail e : Prog S ε α) (Prog.fail e) := by
  intro s t hst
  exact ⟨rfl, hst, fun a hok => by cases hok⟩

theorem Agree.mono {P' : α → Prop} {p q : Prog S ε α} (hpq : Agree h g R P p q)
    (hP : ∀ a, P a → P' a) : Agree h g R P' p q := by
  intro s t hst
  obtain ⟨hsame, hrelated, hreturns⟩ := hpq s t hst
  exact ⟨hsame, hrelated, fun a hok => hP a (hreturns a hok)⟩

theorem Agree.op {o : S.Op} {G : S.Ans o → Prop} {k k' : S.Ans o → Prog S ε α}
    (ho : ∀ s t, R s t → (h o s).1 = (g o t).1 ∧ R (h o s).2 (g o t).2 ∧ G (h o s).1)
    (hk : ∀ r, G r → Agree h g R P (k r) (k' r)) : Agree h g R P (op o k) (Prog.op o k') := by
  intro s t hst
  obtain ⟨hsame, hrelated, hr⟩ := ho s t hst
  rw [run_op, run_op, ← hsame]
  exact hk _ hr _ _ hrelated

theorem Agree.bind {p q : Prog S ε α} {f f' : α → Prog S ε β} (hpq : Agree h g R P p q)
    (hf : ∀ a, P a → Agree h g R Q (f a) (f' a)) :
    Agree h g R Q (p.bind f) (q.bind f') := by
  intro s t hst
  obtain ⟨hsame, hrelated, hreturns⟩ := hpq s t hst
  rw [run_bind, run_bind]
  rcases hp : run h p s with ⟨r, s'⟩
  rcases hq : run g q t with ⟨r', t'⟩
  rw [hp, hq] at hsame hrelated
  rw [hp] at hreturns
  obtain rfl : r = r' := hsame
  cases r with
  | ok a => exact hf a (hreturns a rfl) s' t' hrelated
  | error e => exact ⟨rfl, hrelated, fun b hok => by cases hok⟩

theorem Agree.attempt {p q : Prog S ε α} (hpq : Agree h g R P p q) :
    Agree h g R (fun _ => True) p.attempt q.attempt := by
  intro s t hst
  obtain ⟨hsame, hrelated, -⟩ := hpq s t hst
  rw [run_attempt, run_attempt, hsame]
  exact ⟨rfl, hrelated, fun _ _ => trivial⟩

theorem Agree.ofExcept (r : Except ε α) (hr : ∀ a, r = .ok a → P a) :
    Agree h g R P (ofExcept r) (Prog.ofExcept r) := by
  cases r with
  | ok a => exact .ret (hr a rfl)
  | error e => exact .fail e

/-- A program whose operations the relation does not hide agrees with itself. -/
theorem Uses.agree {A : S.Op → Prop} {G : (o : S.Op) → S.Ans o → Prop} {p : Prog S ε α}
    (hp : p.Uses A G) (hG : ∀ o s t, R s t → G o (h o s).1)
    (hR : ∀ o s t, A o → R s t → (h o s).1 = (g o t).1 ∧ R (h o s).2 (g o t).2) :
    Agree h g R (fun _ => True) p p := by
  intro s t hst
  obtain ⟨hsame, hrelated⟩ := hp.run_simulates hG hR hst
  exact ⟨hsame, hrelated, fun _ _ => trivial⟩

end Rules

end Prog
