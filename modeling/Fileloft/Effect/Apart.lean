import Fileloft.Effect.Pool

/-!
# Threads that keep apart

Where the state has a part for each key, and a thread only sees and changes
the part of its own key, the threads of one key do what they would do if the
others were not there.
-/

namespace Pool

variable {S : Sig} {ε α Q T X σ τ κ : Type}

def Move.thread : Move Q T X → T
  | .start t _ | .step t _ | .finish t => t

/-- The pools that a list of allowed moves reaches from `c₀`. -/
inductive Run [DecidableEq T] (M : Machine S ε α Q T X σ) (P : Pool S ε α Q T σ → Move Q T X → Prop)
    (c₀ : Pool S ε α Q T σ) : List (Move Q T X) → Pool S ε α Q T σ → Prop where
  | nil : Run M P c₀ [] c₀
  | snoc {ms : List (Move Q T X)} {c c' : Pool S ε α Q T σ} (m : Move Q T X) (hP : P c m)
      (hnext : next M m c = some c') : Run M P c₀ ms c → Run M P c₀ (ms ++ [m]) c'

/-- Thread `t` sees of the state what `view` shows for `on t`, as long as
its operations are among `U t`. -/
structure Apart (M : Machine S ε α Q T X σ) (inv : σ → Prop) (view : κ → σ → τ) (on : T → κ)
    (U : T → S.Op → Prop) : Prop where
  enter : ∀ t q s, (inv s → inv (M.enter t q s)) ∧ ∀ i, view i (M.enter t q s) = view i s
  leave : ∀ t q r s, (inv s → inv (M.leave t q r s)) ∧ ∀ i, view i (M.leave t q r s) = view i s
  keeps : ∀ x t o s r s', inv s → U t o → M.act x t o s = some (r, s') → inv s'
  own : ∀ x t o s u r s', inv s → inv u → U t o → view (on t) u = view (on t) s →
    M.act x t o s = some (r, s') →
      ∃ u', M.act x t o u = some (r, u') ∧ view (on t) u' = view (on t) s'
  other : ∀ x t t' o s r s', inv s → U t o → on t' ≠ on t → M.act x t o s = some (r, s') →
    view (on t') s' = view (on t') s

/-- The threads of a key are where they are in the other pool, and see the
same. -/
structure Agrees (view : κ → σ → τ) (on : T → κ) (i : κ) (c d : Pool S ε α Q T σ) : Prop where
  threads : ∀ t, on t = i → d.threads t = c.threads t
  part : view i d.shared = view i c.shared

variable {M : Machine S ε α Q T X σ} {inv : σ → Prop} {view : κ → σ → τ} {on : T → κ}
  {U : T → S.Op → Prop} {P : Pool S ε α Q T σ → Move Q T X → Prop} {c₀ c c' d : Pool S ε α Q T σ}
  {ms : List (Move Q T X)} {m : Move Q T X} {i : κ}

theorem Run.reach [DecidableEq T] (hc : Run M P c₀ ms c) : Reach M P c₀ c := by
  induction hc with
  | nil => exact .refl
  | snoc m hP hnext _ ih => exact .move m hP hnext ih

theorem Run.mono [DecidableEq T] {P' : Pool S ε α Q T σ → Move Q T X → Prop} (hc : Run M P c₀ ms c)
    (hP : ∀ c m, P c m → P' c m) : Run M P' c₀ ms c := by
  induction hc with
  | nil => exact .nil
  | snoc m hm hnext _ ih => exact .snoc m (hP _ m hm) hnext ih

theorem run_of_checked [DecidableEq T] {b : Pool S ε α Q T σ → Move Q T X → Bool}
    {ms' : List (Move Q T X)}
    (hP : ∀ c m, b c m = true → P c m) (hc : Run M P c₀ ms c)
    (hmoves : checked M b ms' c = some c') :
    Run M P c₀ (ms ++ ms') c' := by
  induction ms' generalizing ms c with
  | nil =>
      obtain rfl := Option.some.inj hmoves
      rw [List.append_nil]
      exact hc
  | cons m ms' ih =>
      rw [checked] at hmoves
      split at hmoves
      · next hb =>
          obtain ⟨c₁, hnext, hrest⟩ := Option.bind_eq_some_iff.mp hmoves
          rw [List.append_cons]
          exact ih (.snoc m (hP c m hb) hnext hc) hrest
      · cases hmoves

variable [DecidableEq T]

variable (U) in
/-- The operations of the threads are their own. -/
def Minding (c : Pool S ε α Q T σ) (m : Move Q T X) : Prop :=
  ∀ t x q o k, m = .step t x → c.threads t = .running q (.op o k) → U t o

theorem Apart.keeps_next (hM : Apart M inv view on U) (hm : Minding U c m) (hinv : inv c.shared)
    (hnext : next M m c = some c') : inv c'.shared := by
  rcases next_cases hnext with ⟨t, q, rfl, -, rfl⟩ |
    ⟨t, x, q, o, k, r, s, rfl, hrunning, hact, rfl⟩ |
    ⟨t, q, p, r, rfl, -, -, rfl⟩
  · exact (hM.enter t q c.shared).1 hinv
  · exact hM.keeps x t o c.shared r s hinv (hm t x q o k rfl hrunning) hact
  · exact (hM.leave t q r c.shared).1 hinv

theorem next_step {t : T} {x : X} {q : Q} {o : S.Op} {k : S.Ans o → Prog S ε α}
    {r : S.Ans o} {s : σ}
    (hrunning : c.threads t = .running q (.op o k)) (hact : M.act x t o c.shared = some (r, s)) :
    next M (.step t x) c = some ⟨Function.update c.threads t (.running q (k r)), s⟩ := by
  simp only [next, hrunning, hact, Option.map_some]

/-- A move only moves its own thread. -/
theorem next_threads {t : T} (hnext : next M m c = some c') (ht : t ≠ m.thread) :
    c'.threads t = c.threads t := by
  rcases next_cases hnext with ⟨t', q, rfl, -, rfl⟩ | ⟨t', x, q, o, k, r, s, rfl, -, -, rfl⟩ |
    ⟨t', q, p, r, rfl, -, -, rfl⟩
  · exact Function.update_of_ne ht ..
  · exact Function.update_of_ne ht ..
  · exact Function.update_of_ne ht ..

/-- A move is possible wherever its thread is the same and sees the same. -/
theorem Apart.next_alone (hM : Apart M inv view on U) (hm : Minding U c m) (hc : inv c.shared)
    (hd : inv d.shared) (hthread : d.threads m.thread = c.threads m.thread)
    (hpart : view (on m.thread) d.shared = view (on m.thread) c.shared)
    (hnext : next M m c = some c') :
    ∃ d', next M m d = some d' ∧ d'.threads m.thread = c'.threads m.thread ∧
      view (on m.thread) d'.shared = view (on m.thread) c'.shared := by
  have hself (t : T) (th : Thread S ε α Q) :
      Function.update d.threads t th t = Function.update c.threads t th t := by
    rw [Function.update_self, Function.update_self]
  rcases next_cases hnext with ⟨t, q, rfl, hidle, rfl⟩ |
    ⟨t, x, q, o, k, r, s, rfl, hrunning, hact, rfl⟩ |
    ⟨t, q, p, r, rfl, hrunning, hended, rfl⟩
  · have hidle' : d.threads t = .idle := hthread.trans hidle
    have hnext' : next M (.start t q) d =
        some ⟨Function.update d.threads t (.running q (M.program q)), M.enter t q d.shared⟩ := by
      simp only [next, hidle']
    refine ⟨_, hnext', hself t _, ?_⟩
    rw [(hM.enter t q d.shared).2, (hM.enter t q c.shared).2]
    exact hpart
  · have hrunning' : d.threads t = .running q (.op o k) := hthread.trans hrunning
    obtain ⟨u, hact', hpart'⟩ :=
      hM.own x t o c.shared d.shared r s hc hd (hm t x q o k rfl hrunning)
      hpart hact
    exact ⟨_, next_step hrunning' hact', hself t _, hpart'⟩
  · have hrunning' : d.threads t = .running q p := hthread.trans hrunning
    have hnext' : next M (.finish t) d =
        some ⟨Function.update d.threads t (.done q r), M.leave t q r d.shared⟩ := by
      cases hended <;> simp only [next, hrunning']
    refine ⟨_, hnext', hself t _, ?_⟩
    rw [(hM.leave t q r d.shared).2, (hM.leave t q r c.shared).2]
    exact hpart

/-- The other keys do not see a move. -/
theorem Apart.next_view (hM : Apart M inv view on U) (hm : Minding U c m)
    (hc : inv c.shared) {t' : T} (ht' : on t' ≠ on m.thread) (hnext : next M m c = some c') :
    view (on t') c'.shared = view (on t') c.shared := by
  rcases next_cases hnext with ⟨t, q, rfl, -, rfl⟩ |
    ⟨t, x, q, o, k, r, s, rfl, hrunning, hact, rfl⟩ |
    ⟨t, q, p, r, rfl, -, -, rfl⟩
  · exact (hM.enter t q c.shared).2 _
  · exact hM.other x t t' o c.shared r s hc (hm t x q o k rfl hrunning) ht' hact
  · exact (hM.leave t q r c.shared).2 _

/-- A move of a thread of the key is possible without the others. -/
theorem Apart.next_own (hM : Apart M inv view on U) (hm : Minding U c m) (hi : on m.thread = i)
    (hc : inv c.shared) (hd : inv d.shared) (hagrees : Agrees view on i c d)
    (hnext : next M m c = some c') : ∃ d', next M m d = some d' ∧ Agrees view on i c' d' := by
  subst hi
  obtain ⟨d', hnext', hthread, hpart⟩ :=
    hM.next_alone hm hc hd (hagrees.threads _ rfl) hagrees.part hnext
  refine ⟨d', hnext', fun t ht => ?_, hpart⟩
  by_cases htm : t = m.thread
  · rw [htm]
    exact hthread
  · rw [next_threads hnext htm, next_threads hnext' htm, hagrees.threads t ht]

/-- A move of another thread is not noticed. -/
theorem Apart.next_other (hM : Apart M inv view on U) (hm : Minding U c m) (hi : on m.thread ≠ i)
    (hc : inv c.shared) {t' : T} (ht' : on t' = i) (hagrees : Agrees view on i c d)
    (hnext : next M m c = some c') : Agrees view on i c' d := by
  refine ⟨fun t ht => ?_, ?_⟩
  · have htm : t ≠ m.thread := fun heq => hi (heq ▸ ht)
    rw [next_threads hnext htm, hagrees.threads t ht]
  · subst ht'
    rw [hM.next_view hm hc (Ne.symm hi) hnext, hagrees.part]

/-- The moves of the threads of one key are a run of their own. -/
theorem Apart.project [DecidableEq κ] (hM : Apart M inv view on U)
    (hP : ∀ c m, Reach M P c₀ c → P c m → Minding U c m) (hinv : inv c₀.shared)
    (hc : Run M P c₀ ms c) {t' : T} (ht' : on t' = i) :
    ∃ d, Run M (fun _ _ => True) c₀ (ms.filter fun m => on m.thread = i) d ∧
      Agrees view on i c d := by
  have hboth : inv c.shared ∧ ∃ d, Run M (fun _ _ => True) c₀
      (ms.filter fun m => on m.thread = i) d ∧
      inv d.shared ∧ Agrees view on i c d := by
    induction hc with
    | nil => exact ⟨hinv, c₀, .nil, hinv, fun _ _ => rfl, rfl⟩
    | @snoc ms c c' m hm hnext hrun ih =>
        obtain ⟨hc, d, hown, hd, hagrees⟩ := ih
        have hminds := hP c m hrun.reach hm
        refine ⟨hM.keeps_next hminds hc hnext, ?_⟩
        rw [List.filter_append]
        by_cases hi : on m.thread = i
        · obtain ⟨d', hnext', hagrees'⟩ := hM.next_own hminds hi hc hd hagrees hnext
          have hminds' : Minding U d m := by
            intro t x q o k hmove hrunning
            subst hmove
            exact hminds t x q o k rfl ((hagrees.threads t hi).symm.trans hrunning)
          refine ⟨d', ?_, hM.keeps_next hminds' hd hnext', hagrees'⟩
          rw [List.filter_cons_of_pos (by simpa using hi), List.filter_nil]
          exact .snoc m trivial hnext' hown
        · refine ⟨d, ?_, hd, hM.next_other hminds hi hc ht' hagrees hnext⟩
          rw [List.filter_cons_of_neg (by simpa using hi), List.filter_nil, List.append_nil]
          exact hown
  obtain ⟨-, d, hrun, -, hagrees⟩ := hboth
  exact ⟨d, hrun, hagrees⟩

/-- Each operation of a thread, as long as it is among `U t`, has the same
answer in both machines, and related states stay related. -/
structure Simulates (M : Machine S ε α Q T X σ) (N : Machine S ε α Q T X τ) (R : σ → τ → Prop)
    (U : T → S.Op → Prop) : Prop where
  program : N.program = M.program
  enter : ∀ t q s u, R s u → R (M.enter t q s) (N.enter t q u)
  leave : ∀ t q r s u, R s u → R (M.leave t q r s) (N.leave t q r u)
  act : ∀ x t o s u r s', R s u → U t o → M.act x t o s = some (r, s') →
    ∃ u', N.act x t o u = some (r, u') ∧ R s' u'

section Simulates

variable {N : Machine S ε α Q T X τ} {R : σ → τ → Prop} {d d₀ : Pool S ε α Q T τ}

theorem Simulates.next (hN : Simulates M N R U) (hm : Minding U c m)
    (hthreads : d.threads = c.threads) (hshared : R c.shared d.shared)
    (hnext : next M m c = some c') :
    ∃ d', Pool.next N m d = some d' ∧ d'.threads = c'.threads ∧ R c'.shared d'.shared := by
  rcases next_cases hnext with ⟨t, q, rfl, hidle, rfl⟩ |
    ⟨t, x, q, o, k, r, s, rfl, hrunning, hact, rfl⟩ | ⟨t, q, p, r, rfl, hrunning, hended, rfl⟩
  · have hidle' : d.threads t = .idle := (congrFun hthreads t).trans hidle
    have hnext' : Pool.next N (.start t q) d =
        some ⟨Function.update d.threads t (.running q (N.program q)), N.enter t q d.shared⟩ := by
      simp only [Pool.next, hidle']
    exact ⟨_, hnext', by rw [hthreads, hN.program], hN.enter t q _ _ hshared⟩
  · have hrunning' : d.threads t = .running q (.op o k) := (congrFun hthreads t).trans hrunning
    obtain ⟨u, hact', hu⟩ :=
      hN.act x t o _ _ r s hshared (hm t x q o k rfl hrunning) hact
    exact ⟨_, next_step hrunning' hact', by rw [hthreads], hu⟩
  · have hrunning' : d.threads t = .running q p := (congrFun hthreads t).trans hrunning
    have hnext' : Pool.next N (.finish t) d =
        some ⟨Function.update d.threads t (.done q r), N.leave t q r d.shared⟩ := by
      cases hended <;> simp only [Pool.next, hrunning']
    exact ⟨_, hnext', by rw [hthreads], hN.leave t q r _ _ hshared⟩

/-- A run of the one machine is a run of the other. -/
theorem Simulates.run (hN : Simulates M N R U) {P' : Pool S ε α Q T τ → Move Q T X → Prop}
    (hminds : ∀ c m, Reach M P c₀ c → P c m → Minding U c m)
    (hP : ∀ c d m, d.threads = c.threads → P c m → P' d m)
    (hthreads₀ : d₀.threads = c₀.threads) (hshared₀ : R c₀.shared d₀.shared)
    (hc : Run M P c₀ ms c) :
    ∃ d, Run N P' d₀ ms d ∧ d.threads = c.threads ∧ R c.shared d.shared := by
  induction hc with
  | nil => exact ⟨d₀, .nil, hthreads₀, hshared₀⟩
  | @snoc ms c c' m hm hnext hrun ih =>
      obtain ⟨d, hd, hthreads, hshared⟩ := ih
      obtain ⟨d', hnext', hthreads', hshared'⟩ :=
        hN.next (hminds c m hrun.reach hm) hthreads hshared hnext
      exact ⟨d', .snoc m (hP c d m hthreads hm) hnext' hd, hthreads', hshared'⟩

end Simulates

end Pool
