import Fileloft.Effect.Prog
import Mathlib.Logic.Function.Basic

/-!
# Threads that take turns

Each request is a program of its own. In one move a request arrives, or one
thread performs its next operation on the shared state, or a thread that is
at its end leaves. An operation that has no answer yet waits.
-/

/-- Where one thread is: not started, at work on a request, or finished. -/
inductive Thread (S : Sig) (ε α Q : Type) : Type where
  | idle
  | running (q : Q) (p : Prog S ε α)
  | done (q : Q) (r : Except ε α)

/-- The threads and the state they share. -/
structure Pool (S : Sig) (ε α Q T σ : Type) where
  threads : T → Thread S ε α Q
  shared : σ

namespace Pool

/-- How requests are served, and what a move does to the shared state. `X` is
what the outside contributes to an operation. -/
structure Machine (S : Sig) (ε α Q T X σ : Type) where
  program : Q → Prog S ε α
  act : X → T → (o : S.Op) → σ → Option (S.Ans o × σ)
  enter : T → Q → σ → σ
  leave : T → Q → Except ε α → σ → σ

inductive Move (Q T X : Type) where
  | start (t : T) (q : Q)
  | step (t : T) (x : X)
  | finish (t : T)

variable {S : Sig} {ε α β Q T X σ : Type}

/-- The pool after a move, if the move is possible. -/
def next [DecidableEq T] (M : Machine S ε α Q T X σ) :
    Move Q T X → Pool S ε α Q T σ → Option (Pool S ε α Q T σ)
  | .start t q, c =>
    match c.threads t with
    | .idle => some ⟨Function.update c.threads t (.running q (M.program q)), M.enter t q c.shared⟩
    | _ => none
  | .step t x, c =>
    match c.threads t with
    | .running q (.op o k) =>
      (M.act x t o c.shared).map fun r => ⟨Function.update c.threads t (.running q (k r.1)), r.2⟩
    | _ => none
  | .finish t, c =>
    match c.threads t with
    | .running q (.ret a) => some
      ⟨Function.update c.threads t (.done q (.ok a)), M.leave t q (.ok a) c.shared⟩
    | .running q (.fail e) => some
      ⟨Function.update c.threads t (.done q (.error e)), M.leave t q (.error e) c.shared⟩
    | _ => none

/-- The pool after a list of moves. -/
def moves [DecidableEq T] (M : Machine S ε α Q T X σ) :
    List (Move Q T X) → Pool S ε α Q T σ → Option (Pool S ε α Q T σ)
  | [], c => some c
  | m :: ms, c => (next M m c).bind (moves M ms)

/-- The pools that allowed moves reach from `c₀`. -/
inductive Reach [DecidableEq T] (M : Machine S ε α Q T X σ)
    (P : Pool S ε α Q T σ → Move Q T X → Prop) (c₀ : Pool S ε α Q T σ) :
    Pool S ε α Q T σ → Prop where
  | refl : Reach M P c₀ c₀
  | move {c c' : Pool S ε α Q T σ} (m : Move Q T X) (hP : P c m) (hnext : next M m c = some c') :
      Reach M P c₀ c → Reach M P c₀ c'

/-- How a program that is at its end has ended. -/
inductive Ended : Prog S ε α → Except ε α → Prop where
  | ret (a : α) : Ended (.ret a) (.ok a)
  | fail (e : ε) : Ended (.fail e) (.error e)

variable {M : Machine S ε α Q T X σ} {P : Pool S ε α Q T σ → Move Q T X → Prop}
  {c₀ c c' : Pool S ε α Q T σ}

/-- A list of moves, each allowed where an invariant of the list holds. -/
theorem reach_of_moves [DecidableEq T] {I : Pool S ε α Q T σ → Prop} {ms : List (Move Q T X)}
    (hP : ∀ c, ∀ m ∈ ms, I c → P c m)
    (hI : ∀ c c', ∀ m ∈ ms, I c → next M m c = some c' → I c')
    (h : I c) (hc : Reach M P c₀ c) (hmoves : moves M ms c = some c') : Reach M P c₀ c' := by
  induction ms generalizing c with
  | nil =>
      obtain rfl := Option.some.inj hmoves
      exact hc
  | cons m ms ih =>
      obtain ⟨c₁, hnext, hrest⟩ := Option.bind_eq_some_iff.mp hmoves
      apply ih _ _ _ _ hrest
      · exact fun c m' hm' => hP c m' (List.mem_cons_of_mem _ hm')
      · exact fun c c' m' hm' => hI c c' m' (List.mem_cons_of_mem _ hm')
      · exact hI c c₁ m List.mem_cons_self h hnext
      · exact .move m (hP c m List.mem_cons_self h) hnext hc

/-- A list of moves, each of which is checked first. -/
def checked [DecidableEq T] (M : Machine S ε α Q T X σ) (b : Pool S ε α Q T σ → Move Q T X → Bool) :
    List (Move Q T X) → Pool S ε α Q T σ → Option (Pool S ε α Q T σ)
  | [], c => some c
  | m :: ms, c => if b c m then (next M m c).bind (checked M b ms) else none

/-- Moves that pass the check are allowed where what they keep holds. -/
theorem reach_of_checked_keeping [DecidableEq T] {b : Pool S ε α Q T σ → Move Q T X → Bool}
    {I : Pool S ε α Q T σ → Prop} {ms : List (Move Q T X)}
    (hP : ∀ c m, b c m = true → I c → P c m)
    (hI : ∀ c c' m, b c m = true → I c → next M m c = some c' → I c') (h : I c)
    (hc : Reach M P c₀ c) (hmoves : checked M b ms c = some c') : Reach M P c₀ c' := by
  induction ms generalizing c with
  | nil =>
      obtain rfl := Option.some.inj hmoves
      exact hc
  | cons m ms ih =>
      rw [checked] at hmoves
      split at hmoves
      · next hb =>
          obtain ⟨c₁, hnext, hrest⟩ := Option.bind_eq_some_iff.mp hmoves
          exact ih (hI c c₁ m hb h hnext) (.move m (hP c m hb h) hnext hc) hrest
      · cases hmoves

theorem reach_of_checked [DecidableEq T] {b : Pool S ε α Q T σ → Move Q T X → Bool}
    {ms : List (Move Q T X)} (hP : ∀ c m, b c m = true → P c m) (hc : Reach M P c₀ c)
    (hmoves : checked M b ms c = some c') : Reach M P c₀ c' :=
  reach_of_checked_keeping (I := fun _ => True) (fun c m hb _ => hP c m hb)
    (fun _ _ _ _ _ _ => trivial) trivial hc hmoves

/-- What a move does, by its kind. -/
theorem next_cases [DecidableEq T] {m : Move Q T X} (hnext : next M m c = some c') :
    (∃ t q, m = .start t q ∧ c.threads t = .idle ∧
      c' = ⟨Function.update c.threads t (.running q (M.program q)), M.enter t q c.shared⟩) ∨
    (∃ t x q o k r s, m = .step t x ∧ c.threads t = .running q (.op o k) ∧
      M.act x t o c.shared = some (r, s) ∧
      c' = ⟨Function.update c.threads t (.running q (k r)), s⟩) ∨
    ∃ t q p r, m = .finish t ∧ c.threads t = .running q p ∧ Ended p r ∧
      c' = ⟨Function.update c.threads t (.done q r), M.leave t q r c.shared⟩ := by
  cases m with
  | start t q =>
      simp only [next] at hnext
      split at hnext
      · next hidle => exact .inl ⟨t, q, rfl, hidle, (Option.some.inj hnext).symm⟩
      · cases hnext
  | step t x =>
      simp only [next] at hnext
      split at hnext
      · next q o k hrunning =>
          obtain ⟨⟨r, s⟩, hact, hc'⟩ := Option.map_eq_some_iff.mp hnext
          exact .inr (.inl ⟨t, x, q, o, k, r, s, rfl, hrunning, hact, hc'.symm⟩)
      · cases hnext
  | finish t =>
      simp only [next] at hnext
      split at hnext
      · next q a hrunning =>
          exact .inr (.inr ⟨t, q, _, _, rfl, hrunning, .ret a, (Option.some.inj hnext).symm⟩)
      · next q e hrunning =>
          exact .inr (.inr ⟨t, q, _, _, rfl, hrunning, .fail e, (Option.some.inj hnext).symm⟩)
      · cases hnext

/-- What is left of a program uses no more than the program. -/
theorem Reach.uses [DecidableEq T] {U : T → Q → S.Op → Prop}
    (hprogram : ∀ c t q, P c (.start t q) → (M.program q).Uses (U t q) fun _ _ => True)
    (hidle : ∀ t, c₀.threads t = .idle) (hc : Reach M P c₀ c) {t : T} {q : Q} {p : Prog S ε α}
    (hrunning : c.threads t = .running q p) : p.Uses (U t q) fun _ _ => True := by
  induction hc generalizing t q p with
  | refl =>
      rw [hidle t] at hrunning
      cases hrunning
  | @move c _ m hP hnext _ ih =>
      have hupdate {t' : T} {th : Thread S ε α Q}
          (hth : ∀ q p, th = .running q p → p.Uses (U t' q) fun _ _ => True)
          (hrunning : Function.update c.threads t' th t = .running q p) :
          p.Uses (U t q) fun _ _ => True := by
        by_cases ht : t = t'
        · subst ht
          rw [Function.update_self] at hrunning
          exact hth q p hrunning
        · rw [Function.update_of_ne ht] at hrunning
          exact ih hrunning
      rcases next_cases hnext with ⟨t', q', rfl, -, rfl⟩ |
        ⟨t', x, q', o, k, r, s, rfl, hat, -, rfl⟩ |
        ⟨t', q', p', r, rfl, -, -, rfl⟩
      · refine hupdate ?_ hrunning
        rintro _ _ ⟨⟩
        exact hprogram c t' q' hP
      · refine hupdate ?_ hrunning
        rintro _ _ ⟨⟩
        exact (ih hat).2 r trivial
      · exact hupdate (fun _ _ hth => by cases hth) hrunning

/-! ## What a thread may rely on -/

variable (S T σ) in
/-- What the moves of the others do to a thread, what holds throughout, and
which operations are allowed. -/
structure Discipline where
  rely : T → σ → σ → Prop
  inv : σ → Prop
  allowed : T → S.Op → σ → Prop
  refl : ∀ t s, rely t s s
  trans : ∀ {t s s' s''}, rely t s s' → rely t s' s'' → rely t s s''

variable {D : Discipline S T σ} {t : T}

/-- A fact that the moves of the others do not change. -/
def Stable (D : Discipline S T σ) (t : T) (A : σ → Prop) : Prop :=
  ∀ s s', D.rely t s s' → A s → A s'

/-- What one thread does keeps what holds throughout, and what the others
rely on. -/
def Keeps (D : Discipline S T σ) (t : T) (s s' : σ) : Prop :=
  D.inv s' ∧ ∀ t', t' ≠ t → D.rely t' s s'

theorem Keeps.refl {s : σ} (hinv : D.inv s) : Keeps D t s s := ⟨hinv, fun t' _ => D.refl t' s⟩

/-- From here on the thread keeps the discipline, whatever the others do in
between, and it ends as `A` says. -/
def Secured (M : Machine S ε β Q T X σ) (D : Discipline S T σ) (t : T)
    (A : Except ε α → σ → Prop) : Prog S ε α → σ → Prop
  | .ret a, s => A (.ok a) s
  | .fail e, s => A (.error e) s
  | .op o k, s => ∀ s', D.rely t s s' → D.inv s' → D.allowed t o s' →
      ∀ x r s'', M.act x t o s' = some (r, s'') →
        Keeps D t s' s'' ∧ Secured M D t A (k r) s''

theorem Secured.stable {A : Except ε α → σ → Prop} {p : Prog S ε α} {s s' : σ}
    (hp : Secured M D t A p s) (hA : ∀ r, Stable D t (A r)) (hs : D.rely t s s') :
    Secured M D t A p s' := by
  cases p with
  | ret a => exact hA _ s s' hs hp
  | fail e => exact hA _ s s' hs hp
  | op o k => exact fun s'' hs'' => hp s'' (D.trans hs hs'')

theorem Secured.of_ended {A : Except ε α → σ → Prop} {p : Prog S ε α} {r : Except ε α} {s : σ}
    (hp : Secured M D t A p s) (hended : Ended p r) : A r s := by
  cases hended with
  | ret a => exact hp
  | fail e => exact hp

/-- The operations that are allowed, in the moves of a pool. -/
def Obeys (D : Discipline S T σ) (c : Pool S ε α Q T σ) (m : Move Q T X) : Prop :=
  ∀ t x q o k, m = .step t x → c.threads t = .running q (.op o k) → D.allowed t o c.shared

/-- What is known of a thread, by where it is. -/
def Safe (M : Machine S ε α Q T X σ) (D : Discipline S T σ) (A : Q → Except ε α → σ → Prop)
    (t : T) : Thread S ε α Q → σ → Prop
  | .idle, _ => True
  | .running q p, s => Secured M D t (A q) p s
  | .done q r, s => A q r s

theorem Safe.stable {A : Q → Except ε α → σ → Prop} {th : Thread S ε α Q} {s s' : σ}
    (hth : Safe M D A t th s) (hA : ∀ q r, Stable D t (A q r)) (hs : D.rely t s s') :
    Safe M D A t th s' := by
  cases th with
  | idle => trivial
  | running q p => exact Secured.stable hth (hA q) hs
  | done q r => exact hA q r s s' hs hth

/-- Threads that each keep the discipline keep it together. A thread that has
not started may rely on `I`. -/
theorem Reach.secured_from [DecidableEq T] {A : T → Q → Except ε α → σ → Prop} {I : T → σ → Prop}
    (hA : ∀ t q r, Stable D t (A t q r)) (hI : ∀ t, Stable D t (I t))
    (hobeys : ∀ c m, P c m → Obeys D c m)
    (hstart : ∀ c t q, P c (.start t q) → D.inv c.shared → I t c.shared →
      Keeps D t c.shared (M.enter t q c.shared) ∧
        Secured M D t (A t q) (M.program q) (M.enter t q c.shared))
    (hfinish : ∀ t q r s, D.inv s → A t q r s →
      Keeps D t s (M.leave t q r s) ∧ A t q r (M.leave t q r s))
    (hidle : ∀ t, c₀.threads t = .idle ∧ I t c₀.shared) (hinv : D.inv c₀.shared)
    (hc : Reach M P c₀ c) :
    D.inv c.shared ∧ ∀ t, Safe M D (A t) t (c.threads t) c.shared ∧
      (c.threads t = .idle → I t c.shared) := by
  induction hc with
  | refl =>
      refine ⟨hinv, fun t => ⟨?_, fun _ => (hidle t).2⟩⟩
      rw [(hidle t).1]
      trivial
  | @move c _ m hP hnext _ ih =>
      obtain ⟨hinv, hsafe⟩ := ih
      -- the other threads only see a move they may rely on
      have hothers {t : T} {s : σ} {th : Thread S ε α Q} (hkeeps : Keeps D t c.shared s)
          (hth : Safe M D (A t) t th s) (hstarted : th ≠ .idle) :
          ∀ t', Safe M D (A t') t' (Function.update c.threads t th t') s ∧
            (Function.update c.threads t th t' = .idle → I t' s) := by
        intro t'
        by_cases ht : t' = t
        · subst ht
          rw [Function.update_self]
          exact ⟨hth, fun hidle => absurd hidle hstarted⟩
        · rw [Function.update_of_ne ht]
          have hrely := hkeeps.2 t' ht
          exact ⟨(hsafe t').1.stable (hA t') hrely, fun hidle =>
            hI t' _ _ hrely ((hsafe t').2 hidle)⟩
      rcases next_cases hnext with ⟨t, q, rfl, hidle, rfl⟩ |
        ⟨t, x, q, o, k, r, s, rfl, hrunning, hact, rfl⟩ |
        ⟨t, q, p, r, rfl, hrunning, hended, rfl⟩
      · obtain ⟨hkeeps, hprogram⟩ := hstart _ t q hP hinv ((hsafe t).2 hidle)
        exact ⟨hkeeps.1, hothers hkeeps hprogram nofun⟩
      · have hthread := (hsafe t).1
        rw [hrunning] at hthread
        obtain ⟨hkeeps, hrest⟩ := hthread _ (D.refl t _) hinv
          (hobeys _ _ hP t x q o k rfl hrunning) x r s hact
        exact ⟨hkeeps.1, hothers hkeeps hrest nofun⟩
      · have hthread := (hsafe t).1
        rw [hrunning] at hthread
        obtain ⟨hkeeps, hdone⟩ := hfinish t q r c.shared hinv (Secured.of_ended hthread hended)
        exact ⟨hkeeps.1, hothers hkeeps hdone nofun⟩

theorem Reach.secured [DecidableEq T] {A : T → Q → Except ε α → σ → Prop}
    (hA : ∀ t q r, Stable D t (A t q r))
    (hobeys : ∀ c m, P c m → Obeys D c m)
    (hstart : ∀ c t q, P c (.start t q) → D.inv c.shared →
      Keeps D t c.shared (M.enter t q c.shared) ∧
        Secured M D t (A t q) (M.program q) (M.enter t q c.shared))
    (hfinish : ∀ t q r s, D.inv s → A t q r s →
      Keeps D t s (M.leave t q r s) ∧ A t q r (M.leave t q r s))
    (hidle : ∀ t, c₀.threads t = .idle) (hinv : D.inv c₀.shared) (hc : Reach M P c₀ c) :
    D.inv c.shared ∧ ∀ t, Safe M D (A t) t (c.threads t) c.shared := by
  have hsecured := Reach.secured_from (I := fun _ _ => True) hA (fun _ _ _ _ _ => trivial) hobeys
    (fun c t q hP hinv _ => hstart c t q hP hinv) hfinish (fun t => ⟨hidle t, trivial⟩) hinv hc
  exact ⟨hsecured.1, fun t => (hsecured.2 t).1⟩

/-! ## Rules for one thread -/

/-- A return with `B`, or a failure with `E`. -/
def Outcome (B : α → σ → Prop) (E : σ → Prop) : Except ε α → σ → Prop
  | .ok a => B a
  | .error _ => E

/-- Where `A` holds, the thread keeps the discipline and returns with `B` or
fails with `E`. -/
def Triple (M : Machine S ε β Q T X σ) (D : Discipline S T σ) (t : T) (A : σ → Prop)
    (p : Prog S ε α) (B : α → σ → Prop) (E : σ → Prop) : Prop :=
  ∀ s, D.inv s → A s → Secured M D t (Outcome B E) p s

section Rules

variable {A A' : σ → Prop} {B B' : α → σ → Prop} {E E' : σ → Prop} {γ : Type}
  {N : Machine S ε γ Q T X σ}

theorem Outcome.stable (hB : ∀ a, Stable D t (B a)) (hE : Stable D t E) (r : Except ε α) :
    Stable D t (Outcome B E r) := by
  cases r with
  | ok a => exact hB a
  | error e => exact hE

theorem Secured.mono {C C' : Except ε α → σ → Prop} {p : Prog S ε α} {s : σ}
    (hp : Secured N D t C p s) (hC : ∀ r s, C r s → C' r s) : Secured N D t C' p s := by
  induction p generalizing s with
  | ret a => exact hC _ s hp
  | fail e => exact hC _ s hp
  | op o k ih =>
      intro s' hs' hinv hallowed x r s'' hact
      obtain ⟨hkeeps, hrest⟩ := hp s' hs' hinv hallowed x r s'' hact
      exact ⟨hkeeps, ih r hrest⟩

theorem Secured.bind {p : Prog S ε α} {f : α → Prog S ε β} {C : β → σ → Prop} {s : σ}
    (hinv : D.inv s) (hp : Secured N D t (Outcome B E) p s)
    (hf : ∀ a, Triple N D t (B a) (f a) C E) : Secured N D t (Outcome C E) (p.bind f) s := by
  induction p generalizing s with
  | ret a => exact hf a s hinv hp
  | fail e => exact hp
  | op o k ih =>
      intro s' hs' hinv' hallowed x r s'' hact
      obtain ⟨hkeeps, hrest⟩ := hp s' hs' hinv' hallowed x r s'' hact
      exact ⟨hkeeps, ih r hkeeps.1 hrest⟩

theorem Secured.attempt {C : Except ε α → σ → Prop} {p : Prog S ε α} {s : σ}
    (hp : Secured N D t C p s) : Secured N D t (Outcome C E) p.attempt s := by
  induction p generalizing s with
  | ret a => exact hp
  | fail e => exact hp
  | op o k ih =>
      intro s' hs' hinv hallowed x r s'' hact
      obtain ⟨hkeeps, hrest⟩ := hp s' hs' hinv hallowed x r s'' hact
      exact ⟨hkeeps, ih r hrest⟩

theorem Triple.conseq {p : Prog S ε α} (hp : Triple N D t A p B E)
    (hA : ∀ s, D.inv s → A' s → A s) (hB : ∀ a s, B a s → B' a s) (hE : ∀ s, E s → E' s) :
    Triple N D t A' p B' E' := by
  intro s hinv hs
  apply (hp s hinv (hA s hinv hs)).mono
  intro r s hr
  cases r with
  | ok a => exact hB a s hr
  | error e => exact hE s hr

theorem Triple.pre {p : Prog S ε α} (hp : Triple N D t A p B E)
    (hA : ∀ s, D.inv s → A' s → A s) : Triple N D t A' p B E :=
  hp.conseq hA (fun _ _ h => h) fun _ h => h

/-- A precondition that says nothing of the state. -/
theorem Triple.fact {F : Prop} {p : Prog S ε α} (hp : F → Triple N D t A p B E) :
    Triple N D t (fun s => F ∧ A s) p B E :=
  fun s hinv hs => hp hs.1 s hinv hs.2

theorem Triple.ret {a : α} (h : ∀ s, D.inv s → A s → B a s) : Triple N D t A (.ret a) B E :=
  fun s hinv hs => h s hinv hs

theorem Triple.fail {e : ε} (h : ∀ s, D.inv s → A s → E s) : Triple N D t A (.fail e) B E :=
  fun s hinv hs => h s hinv hs

theorem Triple.ofExcept {r : Except ε α} : Triple N D t (Outcome B E r) (.ofExcept r) B E := by
  cases r with
  | ok a => exact .ret fun _ _ hs => hs
  | error e => exact .fail fun _ _ hs => hs

theorem Triple.bind {p : Prog S ε α} {f : α → Prog S ε β} {C : β → σ → Prop}
    (hp : Triple N D t A p B E) (hf : ∀ a, Triple N D t (B a) (f a) C E) :
    Triple N D t A (p.bind f) C E :=
  fun s hinv hs => (hp s hinv hs).bind hinv hf

theorem Triple.attempt {p : Prog S ε α} (hp : Triple N D t A p B E) :
    Triple N D t A p.attempt (Outcome B E) E' :=
  fun s hinv hs => (hp s hinv hs).attempt

/-- One operation, from a fact that the others do not change. -/
theorem Triple.op {o : S.Op} {k : S.Ans o → Prog S ε α} {C : S.Ans o → σ → Prop}
    (hA : Stable D t A)
    (hact : ∀ s x r s', D.inv s → D.allowed t o s → A s → N.act x t o s = some (r, s') →
      Keeps D t s s' ∧ C r s')
    (hk : ∀ r, Triple N D t (C r) (k r) B E) : Triple N D t A (.op o k) B E := by
  intro s _ hs s' hs' hinv hallowed x r s'' hr
  obtain ⟨hkeeps, hC⟩ := hact s' x r s'' hinv hallowed (hA s s' hs' hs) hr
  exact ⟨hkeeps, hk r s'' hkeeps.1 hC⟩

/-- A program whose operations all keep a fact. -/
theorem Triple.of_uses {U : S.Op → Prop} {p : Prog S ε α} (hp : p.Uses U fun _ _ => True)
    (hA : Stable D t A)
    (hact : ∀ o s x r s', U o → D.inv s → D.allowed t o s → A s → N.act x t o s = some (r, s') →
      Keeps D t s s' ∧ A s') : Triple N D t A p (fun _ => A) A := by
  induction p with
  | ret a => exact .ret fun _ _ hs => hs
  | fail e => exact .fail fun _ _ hs => hs
  | op o k ih =>
      apply Triple.op (C := fun _ => A) hA
      · exact fun s x r s' hinv hallowed hs hr => hact o s x r s' hp.1 hinv hallowed hs hr
      · exact fun r => ih r (hp.2 r trivial)

end Rules

end Pool
