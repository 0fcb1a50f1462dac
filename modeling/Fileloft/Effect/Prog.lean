import Mathlib.Logic.Basic

/-!
# Programs as trees of operations

A program either returns, fails, or performs one operation of a signature
and continues with the answer. The same tree is run against a state, cut
off after a number of operations, or inspected for the operations it can
perform, so every reading of it speaks about one text.
-/

/-- Operations and the type of the answer to each of them. -/
structure Sig where
  Op : Type
  Ans : Op → Type

/-- A program over `S` that fails with `ε` or returns `α`. -/
inductive Prog (S : Sig) (ε : Type) (α : Type) : Type where
  | ret (a : α)
  | fail (e : ε)
  | op (o : S.Op) (k : S.Ans o → Prog S ε α)

/-- An interpretation answers each operation and moves the state. -/
abbrev Interp (S : Sig) (σ : Type) : Type := (o : S.Op) → σ → S.Ans o × σ

namespace Prog

variable {S T : Sig} {ε α β γ σ τ : Type}

def bind : Prog S ε α → (α → Prog S ε β) → Prog S ε β
  | .ret a, f => f a
  | .fail e, _ => .fail e
  | .op o k, f => .op o fun r => (k r).bind f

instance : Monad (Prog S ε) where
  pure := .ret
  bind := bind

/-- One operation, returning its answer. -/
def call (o : S.Op) : Prog S ε (S.Ans o) := .op o .ret

def ofExcept : Except ε α → Prog S ε α
  | .ok a => .ret a
  | .error e => .fail e

/-- Turn a failure into a value, so that work can follow it. -/
def attempt : Prog S ε α → Prog S ε (Except ε α)
  | .ret a => .ret (.ok a)
  | .fail e => .ret (.error e)
  | .op o k => .op o fun r => (k r).attempt

@[simp] theorem pure_eq (a : α) : (pure a : Prog S ε α) = .ret a := rfl

@[simp] theorem bind_eq (p : Prog S ε α) (f : α → Prog S ε β) : p >>= f = p.bind f := rfl

@[simp] theorem ret_bind (a : α) (f : α → Prog S ε β) : (ret a).bind f = f a := rfl

@[simp] theorem fail_bind (e : ε) (f : α → Prog S ε β) :
    (fail e : Prog S ε α).bind f = fail e := rfl

@[simp] theorem op_bind (o : S.Op) (k : S.Ans o → Prog S ε α) (f : α → Prog S ε β) :
    (op o k).bind f = op o fun r => (k r).bind f := rfl

@[simp] theorem ofExcept_ok (a : α) : (ofExcept (.ok a) : Prog S ε α) = ret a := rfl

@[simp] theorem ofExcept_error (e : ε) : (ofExcept (.error e) : Prog S ε α) = fail e := rfl

theorem bind_assoc (p : Prog S ε α) (f : α → Prog S ε β) (g : β → Prog S ε γ) :
    (p.bind f).bind g = p.bind fun a => (f a).bind g := by
  induction p with
  | ret a => rfl
  | fail e => rfl
  | op o k ih =>
      simp only [op_bind]
      congr 1
      funext r
      exact ih r

/-! ## Running to the end -/

def run (h : Interp S σ) : Prog S ε α → σ → Except ε α × σ
  | .ret a, s => (.ok a, s)
  | .fail e, s => (.error e, s)
  | .op o k, s => run h (k (h o s).1) (h o s).2

@[simp] theorem run_ret (h : Interp S σ) (a : α) (s : σ) :
    run h (ret a : Prog S ε α) s = (.ok a, s) := rfl

@[simp] theorem run_fail (h : Interp S σ) (e : ε) (s : σ) :
    run h (fail e : Prog S ε α) s = (.error e, s) := rfl

@[simp] theorem run_op (h : Interp S σ) (o : S.Op) (k : S.Ans o → Prog S ε α) (s : σ) :
    run h (op o k) s = run h (k (h o s).1) (h o s).2 := rfl

@[simp] theorem run_call (h : Interp S σ) (o : S.Op) (s : σ) :
    run h (call o : Prog S ε _) s = (.ok (h o s).1, (h o s).2) := rfl

@[simp] theorem run_ofExcept (h : Interp S σ) (r : Except ε α) (s : σ) :
    run h (ofExcept r) s = (r, s) := by
  cases r <;> rfl

theorem run_bind (h : Interp S σ) (p : Prog S ε α) (f : α → Prog S ε β) (s : σ) :
    run h (p.bind f) s =
      match run h p s with
      | (.ok a, s') => run h (f a) s'
      | (.error e, s') => (.error e, s') := by
  induction p generalizing s with
  | ret a => rfl
  | fail e => rfl
  | op o k ih => exact ih _ _

theorem run_bind_ok {h : Interp S σ} {p : Prog S ε α} {f : α → Prog S ε β} {s s' : σ} {a : α}
    (hp : run h p s = (.ok a, s')) : run h (p.bind f) s = run h (f a) s' := by
  rw [run_bind, hp]

theorem run_bind_error {h : Interp S σ} {p : Prog S ε α} {f : α → Prog S ε β} {s s' : σ}
    {e : ε} (hp : run h p s = (.error e, s')) : run h (p.bind f) s = (.error e, s') := by
  rw [run_bind, hp]

/-- A run of a sequence that returns went through its first part. -/
theorem run_bind_eq_ok {h : Interp S σ} {p : Prog S ε α} {f : α → Prog S ε β} {s t : σ} {b : β}
    (hb : run h (p.bind f) s = (.ok b, t)) :
    ∃ a s', run h p s = (.ok a, s') ∧ run h (f a) s' = (.ok b, t) := by
  rw [run_bind] at hb
  rcases hp : run h p s with ⟨r, s'⟩
  rw [hp] at hb
  cases r with
  | ok a => exact ⟨a, s', rfl, hb⟩
  | error e => simp at hb

@[simp] theorem run_attempt (h : Interp S σ) (p : Prog S ε α) (s : σ) :
    run h p.attempt s = (.ok (run h p s).1, (run h p s).2) := by
  induction p generalizing s with
  | ret a => rfl
  | fail e => rfl
  | op o k ih => exact ih _ _

/-- What every operation preserves, the whole run preserves. -/
theorem run_preserves {h : Interp S σ} {I : σ → Prop} (hI : ∀ o s, I s → I (h o s).2)
    (p : Prog S ε α) {s : σ} (hs : I s) : I (run h p s).2 := by
  induction p generalizing s with
  | ret a => exact hs
  | fail e => exact hs
  | op o k ih => exact ih _ (hI o s hs)

/-! ## The operations of one run -/

/-- The operations a run performs, each with its answer. -/
def trace (h : Interp S σ) : Prog S ε α → σ → List ((o : S.Op) × S.Ans o)
  | .ret _, _ => []
  | .fail _, _ => []
  | .op o k, s => ⟨o, (h o s).1⟩ :: trace h (k (h o s).1) (h o s).2

@[simp] theorem trace_ret (h : Interp S σ) (a : α) (s : σ) :
    trace h (ret a : Prog S ε α) s = [] := rfl

@[simp] theorem trace_fail (h : Interp S σ) (e : ε) (s : σ) :
    trace h (fail e : Prog S ε α) s = [] := rfl

@[simp] theorem trace_op (h : Interp S σ) (o : S.Op) (k : S.Ans o → Prog S ε α) (s : σ) :
    trace h (op o k) s = ⟨o, (h o s).1⟩ :: trace h (k (h o s).1) (h o s).2 := rfl

@[simp] theorem trace_call (h : Interp S σ) (o : S.Op) (s : σ) :
    trace h (call o : Prog S ε _) s = [⟨o, (h o s).1⟩] := rfl

theorem trace_bind_ok {h : Interp S σ} {p : Prog S ε α} {f : α → Prog S ε β} {s s' : σ} {a : α}
    (hp : run h p s = (.ok a, s')) : trace h (p.bind f) s = trace h p s ++ trace h (f a) s' := by
  induction p generalizing s with
  | ret b =>
      obtain ⟨hb, rfl⟩ := Prod.mk.inj hp
      rw [Except.ok.inj hb]
      rfl
  | fail e => simp at hp
  | op o k ih =>
      rw [op_bind, trace_op, trace_op, ih _ hp]
      rfl

theorem trace_bind_error {h : Interp S σ} {p : Prog S ε α} {f : α → Prog S ε β} {s s' : σ} {e : ε}
    (hp : run h p s = (.error e, s')) : trace h (p.bind f) s = trace h p s := by
  induction p generalizing s with
  | ret b => simp at hp
  | fail e => rfl
  | op o k ih =>
      rw [op_bind, trace_op, trace_op, ih _ hp]

@[simp] theorem trace_attempt (h : Interp S σ) (p : Prog S ε α) (s : σ) :
    trace h p.attempt s = trace h p s := by
  induction p generalizing s with
  | ret a => rfl
  | fail e => rfl
  | op o k ih => exact congrArg _ (ih _ _)

/-! ## What a program can perform -/

/-- Every operation the program can reach satisfies `A`, as long as the
answers to the earlier ones satisfy `G`. -/
def Uses (A : S.Op → Prop) (G : (o : S.Op) → S.Ans o → Prop) : Prog S ε α → Prop
  | .ret _ => True
  | .fail _ => True
  | .op o k => A o ∧ ∀ r, G o r → (k r).Uses A G

section Uses

variable {A : S.Op → Prop} {G : (o : S.Op) → S.Ans o → Prop}

@[simp] theorem uses_ret (a : α) : (ret a : Prog S ε α).Uses A G := trivial

@[simp] theorem uses_fail (e : ε) : (fail e : Prog S ε α).Uses A G := trivial

@[simp] theorem uses_op (o : S.Op) (k : S.Ans o → Prog S ε α) :
    (op o k).Uses A G ↔ A o ∧ ∀ r, G o r → (k r).Uses A G := Iff.rfl

@[simp] theorem uses_ofExcept (r : Except ε α) : (ofExcept r : Prog S ε α).Uses A G := by
  cases r <;> trivial

theorem Uses.bind {p : Prog S ε α} {f : α → Prog S ε β} (hp : p.Uses A G)
    (hf : ∀ a, (f a).Uses A G) : (p.bind f).Uses A G := by
  induction p with
  | ret a => exact hf a
  | fail e => trivial
  | op o k ih => exact ⟨hp.1, fun r hr => ih r (hp.2 r hr)⟩

theorem Uses.attempt {p : Prog S ε α} (hp : p.Uses A G) : p.attempt.Uses A G := by
  induction p with
  | ret a => trivial
  | fail e => trivial
  | op o k ih => exact ⟨hp.1, fun r hr => ih r (hp.2 r hr)⟩

theorem Uses.mono {B : S.Op → Prop} {p : Prog S ε α} (hp : p.Uses A G)
    (hAB : ∀ o, A o → B o) : p.Uses B G := by
  induction p with
  | ret a => trivial
  | fail e => trivial
  | op o k ih => exact ⟨hAB o hp.1, fun r hr => ih r (hp.2 r hr)⟩

theorem uses_of_forall (p : Prog S ε α) (hA : ∀ o, A o) : p.Uses A G := by
  induction p with
  | ret a => trivial
  | fail e => trivial
  | op o k ih => exact ⟨hA o, fun r _ => ih r⟩

/-- Fewer answers leave fewer operations. -/
theorem Uses.restrict {G' : (o : S.Op) → S.Ans o → Prop} {p : Prog S ε α} (hp : p.Uses A G)
    (hG : ∀ o r, G' o r → G o r) : p.Uses A G' := by
  induction p with
  | ret a => trivial
  | fail e => trivial
  | op o k ih => exact ⟨hp.1, fun r hr => ih r (hp.2 r (hG o r hr))⟩

/-- Every value the program can return satisfies `Q`, as long as the answers
satisfy `G`. -/
def Returns (G : (o : S.Op) → S.Ans o → Prop) (Q : α → Prop) : Prog S ε α → Prop
  | .ret a => Q a
  | .fail _ => True
  | .op o k => ∀ r, G o r → (k r).Returns G Q

theorem Returns.bind {P : α → Prop} {Q : β → Prop} {p : Prog S ε α} {f : α → Prog S ε β}
    (hp : p.Returns G P) (hf : ∀ a, P a → (f a).Returns G Q) : (p.bind f).Returns G Q := by
  induction p with
  | ret a => exact hf a hp
  | fail e => trivial
  | op o k ih => exact fun r hr => ih r (hp r hr)

theorem Returns.of_run {Q : α → Prop} {h : Interp S σ} {p : Prog S ε α} {s : σ} {a : α}
    (hp : p.Returns G Q) (hG : ∀ o s, G o (h o s).1) (hrun : (run h p s).1 = .ok a) : Q a := by
  induction p generalizing s with
  | ret b =>
      obtain rfl := Except.ok.inj hrun
      exact hp
  | fail e => cases hrun
  | op o k ih => exact ih _ (hp _ (hG o s)) hrun

theorem Returns.attempt {Q : α → Prop} {p : Prog S ε α} (hp : p.Returns G Q) :
    p.attempt.Returns G fun r => ∀ a, r = .ok a → Q a := by
  induction p with
  | ret a =>
      rintro a' h
      obtain rfl := Except.ok.inj h
      exact hp
  | fail e => exact nofun
  | op o k ih => exact fun r hr => ih r (hp r hr)

theorem returns_of_forall {Q : α → Prop} (p : Prog S ε α) (hQ : ∀ a, Q a) : p.Returns G Q := by
  induction p with
  | ret a => exact hQ a
  | fail e => trivial
  | op o k ih => exact fun r _ => ih r

theorem returns_true (p : Prog S ε α) : p.Returns G fun _ => True :=
  p.returns_of_forall fun _ => trivial

/-- The rule for a sequence whose second part relies on what the first returns. -/
theorem Uses.bind_of_returns {P : α → Prop} {p : Prog S ε α} {f : α → Prog S ε β}
    (hp : p.Uses A G) (hr : p.Returns G P) (hf : ∀ a, P a → (f a).Uses A G) :
    (p.bind f).Uses A G := by
  induction p with
  | ret a => exact hf a hr
  | fail e => trivial
  | op o k ih => exact ⟨hp.1, fun r hG => ih r (hp.2 r hG) (hr r hG)⟩

/-- What every allowed operation preserves, the whole run preserves. -/
theorem Uses.run_preserves {h : Interp S σ} {I : σ → Prop} {p : Prog S ε α} {s : σ}
    (hp : p.Uses A G) (hG : ∀ o s, I s → G o (h o s).1)
    (hI : ∀ o s, A o → I s → I (h o s).2) (hs : I s) : I (run h p s).2 := by
  induction p generalizing s with
  | ret a => exact hs
  | fail e => exact hs
  | op o k ih => exact ih _ (hp.2 _ (hG o s hs)) (hI o s hp.1 hs)

/-- Every operation of a run is allowed, and so is its answer. -/
theorem Uses.of_mem_trace {h : Interp S σ} {p : Prog S ε α} {s : σ} (hp : p.Uses A G)
    (hG : ∀ o s, G o (h o s).1) {o : S.Op} {r : S.Ans o} (hmem : ⟨o, r⟩ ∈ p.trace h s) :
    A o ∧ G o r := by
  induction p generalizing s with
  | ret a => cases hmem
  | fail e => cases hmem
  | op o' k ih =>
      rcases List.mem_cons.mp hmem with heq | hrest
      · obtain ⟨rfl, hr⟩ := Sigma.mk.inj heq
        obtain rfl := eq_of_heq hr
        exact ⟨hp.1, hG o s⟩
      · exact ih _ (hp.2 _ (hG o' s)) hrest

/-- Two interpretations that agree on every allowed operation, up to a
relation of their states, agree on the whole run. -/
theorem Uses.run_simulates {h : Interp S σ} {g : Interp S τ} {R : σ → τ → Prop}
    {p : Prog S ε α} {s : σ} {t : τ} (hp : p.Uses A G)
    (hG : ∀ o s t, R s t → G o (h o s).1)
    (hR : ∀ o s t, A o → R s t → (h o s).1 = (g o t).1 ∧ R (h o s).2 (g o t).2)
    (hst : R s t) : (run h p s).1 = (run g p t).1 ∧ R (run h p s).2 (run g p t).2 := by
  induction p generalizing s t with
  | ret a => exact ⟨rfl, hst⟩
  | fail e => exact ⟨rfl, hst⟩
  | op o k ih =>
      obtain ⟨hans, hnext⟩ := hR o s t hp.1 hst
      simp only [run_op]
      rw [← hans]
      exact ih _ (hp.2 _ (hG o s t hst)) hnext

end Uses

end Prog
