import Fileloft.Effect.Apart
import Fileloft.Effect.Locks

/-!
# Threads that could have run one after another

A thread that works under one lock, and only there, could as well have done
all its work at once when it gave the lock back. A run of such threads is as
good as one in which they come one after another.
-/

namespace Prog

variable {S : Sig} {K ε α β : Type} {L : Locking S K} {U : S.Op → Prop} {i : K}

/-- Nothing is left to do. -/
def Over (p : Prog S ε α) : Prop := ∃ r, Pool.Ended p r

/-- With the lock `i` taken: work among `U`, and then the lock is given back
and nothing is left to do. -/
inductive Inside (L : Locking S K) (U : S.Op → Prop) (i : K) : Prog S ε α → Prop where
  | work {o : S.Op} {k : S.Ans o → Prog S ε α} (ho : L.kind o = .other) (hU : U o)
      (hk : ∀ r, Inside L U i (k r)) : Inside L U i (.op o k)
  | release {o : S.Op} {k : S.Ans o → Prog S ε α} (ho : L.kind o = .release i) (hU : U o)
      (hk : ∀ r, (k r).Over) : Inside L U i (.op o k)

/-- All that is done is done inside. -/
inductive Once (L : Locking S K) (U : S.Op → Prop) (i : K) : Prog S ε α → Prop where
  | nothing {p : Prog S ε α} (hp : p.Over) : Once L U i p
  | acquire {o : S.Op} {k : S.Ans o → Prog S ε α} (ho : L.kind o = .acquire i) (hU : U o)
      (hk : ∀ r, (L.granted o r → Inside L U i (k r)) ∧ (¬ L.granted o r → (k r).Over)) :
      Once L U i (.op o k)

theorem over_ret (a : α) : (ret a : Prog S ε α).Over := ⟨_, .ret a⟩

theorem over_fail (e : ε) : (fail e : Prog S ε α).Over := ⟨_, .fail e⟩

theorem over_ofExcept (r : Except ε α) : (ofExcept r : Prog S ε α).Over := by
  cases r with
  | ok a => exact over_ret a
  | error e => exact over_fail e

theorem Over.bind {p : Prog S ε α} {f : α → Prog S ε β} (hp : p.Over) (hf : ∀ a, (f a).Over) :
    (p.bind f).Over := by
  obtain ⟨r, hended⟩ := hp
  cases hended with
  | ret a => exact hf a
  | fail e => exact over_fail e

theorem Over.attempt {p : Prog S ε α} (hp : p.Over) : p.attempt.Over := by
  obtain ⟨r, hended⟩ := hp
  cases hended with
  | ret a => exact over_ret _
  | fail e => exact over_ret _

theorem Inside.bind {p : Prog S ε α} {f : α → Prog S ε β} (hp : Inside L U i p)
    (hf : ∀ a, (f a).Over) :
    Inside L U i (p.bind f) := by
  induction hp with
  | work ho hU _ ih => exact .work ho hU ih
  | release ho hU hk => exact .release ho hU fun r => (hk r).bind hf

theorem Inside.attempt {p : Prog S ε α} (hp : Inside L U i p) : Inside L U i p.attempt := by
  induction hp with
  | work ho hU _ ih => exact .work ho hU ih
  | release ho hU hk => exact .release ho hU fun r => (hk r).attempt

/-- Work that always returns may come before what is inside. -/
theorem inside_then {p : Prog S ε α} {f : α → Prog S ε β}
    (hp : p.Uses (fun o => L.kind o = .other ∧ U o) fun _ _ => True) (htotal : p.Total)
    (hf : ∀ a, Inside L U i (f a)) : Inside L U i (p.bind f) := by
  induction p with
  | ret a => exact hf a
  | fail e => exact htotal.elim
  | op o k ih => exact .work hp.1.1 hp.1.2 fun r => ih r (hp.2 r trivial) (htotal r)

theorem Once.bind {p : Prog S ε α} {f : α → Prog S ε β} (hp : Once L U i p) (hf : ∀ a, (f a).Over) :
    Once L U i (p.bind f) := by
  cases hp with
  | nothing hp => exact .nothing (hp.bind hf)
  | acquire ho hU hk => exact .acquire ho hU fun r => ⟨fun hr => ((hk r).1 hr).bind hf,
      fun hr => ((hk r).2 hr).bind hf⟩

theorem Once.attempt {p : Prog S ε α} (hp : Once L U i p) : Once L U i p.attempt := by
  cases hp with
  | nothing hp => exact .nothing hp.attempt
  | acquire ho hU hk => exact .acquire ho hU fun r => ⟨fun hr => ((hk r).1 hr).attempt,
      fun hr => ((hk r).2 hr).attempt⟩

end Prog

namespace Pool

variable {S : Sig} {ε α Q T X σ τ κ : Type} {M : Machine S ε α Q T X σ} {L : Locking S κ}
  {holder : σ → κ → Option T} {inv : σ → Prop} {view : κ → σ → τ} {on : T → κ} {U : T → S.Op → Prop}

/-- Threads that see the part of their key, and lock it. A thread that is not
given its lock leaves no trace, and is not given it in any other state either. -/
structure Turns [DecidableEq κ] (M : Machine S ε α Q T X σ) (L : Locking S κ)
    (holder : σ → κ → Option T) (inv : σ → Prop) (view : κ → σ → τ) (on : T → κ)
    (U : T → S.Op → Prop) : Prop where
  guards : Guards M L holder
  apart : Apart M inv view on U
  refuse : ∀ x t o i s r s' u, L.kind o = .acquire i → M.act x t o s = some (r, s') →
    ¬ L.granted o r →
    (∀ j, view j s' = view j s) ∧ ∃ u', M.act x t o u = some (r, u') ∧ ∀ j, view j u' = view j u

theorem ended_unique {p : Prog S ε α} {r r' : Except ε α} (hp : Ended p r) (hp' : Ended p r') :
    r = r' := by
  cases hp with
  | ret a =>
      cases hp'
      rfl
  | fail e =>
      cases hp'
      rfl

theorem not_ended_op {o : S.Op} {k : S.Ans o → Prog S ε α} {r : Except ε α} : ¬ Ended (.op o k) r :=
  fun h => by cases h

variable [DecidableEq T]

/-! ## One thread after another -/

section Runs

variable {P : Pool S ε α Q T σ → Move Q T X → Prop} {c₀ c c' d d' e : Pool S ε α Q T σ}
  {ms ms' : List (Move Q T X)} {m : Move Q T X} {t : T}

theorem Run.append (hc : Run M P c₀ ms c) (hc' : Run M P c ms' c') : Run M P c₀ (ms ++ ms') c' := by
  induction hc' with
  | nil =>
      rw [List.append_nil]
      exact hc
  | snoc m hP hnext _ ih =>
      rw [← List.append_assoc]
      exact .snoc m hP hnext ih

omit [DecidableEq T] in
theorem minding_congr (hthread : e.threads m.thread = d.threads m.thread) (hm : Minding U d m) :
    Minding U e m := by
  intro t x q o k hmove hrunning
  subst hmove
  exact hm t x q o k rfl (hthread.symm.trans hrunning)

/-- A run of one thread, seen by the others. -/
theorem Apart.run_other (hM : Apart M inv view on U) (hrun : Run M (Minding U) d ms d')
    (hms : ∀ m ∈ ms, m.thread = t) (hd : inv d.shared) :
    inv d'.shared ∧ (∀ t', t' ≠ t → d'.threads t' = d.threads t') ∧
      ∀ t', on t' ≠ on t → view (on t') d'.shared = view (on t') d.shared := by
  induction hrun with
  | nil => exact ⟨hd, fun _ _ => rfl, fun _ _ => rfl⟩
  | @snoc ms d d' m hm hnext _ ih =>
      obtain ⟨hinv, hthreads, hviews⟩ := ih fun m hmem => hms m (List.mem_append_left _ hmem)
      have hthread : m.thread = t := hms m (List.mem_append_right _ List.mem_cons_self)
      refine ⟨hM.keeps_next hm hinv hnext, fun t' ht => ?_, fun t' ht => ?_⟩
      · rw [next_threads hnext (hthread ▸ ht), hthreads t' ht]
      · rw [hM.next_view hm hinv (hthread ▸ ht) hnext, hviews t' ht]

/-- A run of one thread is a run from wherever the thread and its part are the
same. -/
theorem Apart.run_alone (hM : Apart M inv view on U) (hrun : Run M (Minding U) d ms d')
    (hms : ∀ m ∈ ms, m.thread = t) (hd : inv d.shared) (he : inv e.shared)
    (hthread : e.threads t = d.threads t) (hview : view (on t) e.shared = view (on t) d.shared) :
    ∃ e', Run M (Minding U) e ms e' ∧ e'.threads t = d'.threads t ∧
      view (on t) e'.shared = view (on t) d'.shared := by
  induction hrun with
  | nil => exact ⟨e, .nil, hthread, hview⟩
  | @snoc ms d₁ d' m hm hnext hrun ih =>
      have hms' : ∀ m ∈ ms, m.thread = t := fun m hmem => hms m (List.mem_append_left _ hmem)
      obtain rfl : m.thread = t := hms m (List.mem_append_right _ List.mem_cons_self)
      obtain ⟨e₁, hown, hthread₁, hview₁⟩ := ih hms'
      obtain ⟨e', hnext', hthread', hview'⟩ := hM.next_alone hm (hM.run_other hrun hms' hd).1
        (hM.run_other hown hms' he).1 hthread₁ hview₁ hnext
      exact ⟨e', .snoc m (minding_congr hthread₁ hm) hnext' hown, hthread', hview'⟩

end Runs

/-! ## The order in which the threads come -/

/-- The moves of one thread, and its end if that is all that is left. -/
def own (ms : List (Move Q T X)) (c : Pool S ε α Q T σ) (t : T) : List (Move Q T X) :=
  ms.filter (fun m => m.thread = t) ++
    match c.threads t with
    | .running _ _ => [.finish t]
    | _ => []

/-- Where a thread is after the moves `ms`, in the pool `c` and in the pool
`d` in which the threads of `order` came one after another. A thread inside
could do its part from `d` on. -/
inductive Stage (M : Machine S ε α Q T X σ) (L : Locking S κ) (holder : σ → κ → Option T)
    (view : κ → σ → τ) (on : T → κ) (U : T → S.Op → Prop) (ms : List (Move Q T X)) (order : List T)
    (c d : Pool S ε α Q T σ) (t : T) : Prop where
  | idle (hc : c.threads t = .idle) (hms : ms.filter (fun m => m.thread = t) = [])
      (hd : d.threads t = .idle) (hnot : t ∉ order)
  | asks (q : Q) (hc : c.threads t = .running q (M.program q)) (hover : ¬ (M.program q).Over)
      (honce : (M.program q).Once L (U t) (on t))
      (hms : ms.filter (fun m => m.thread = t) = [.start t q])
      (hd : d.threads t = .idle) (hnot : t ∉ order)
  | inside (q : Q) (p : Prog S ε α) (d' : Pool S ε α Q T σ) (hc : c.threads t = .running q p)
      (hp : p.Inside L (U t) (on t)) (hholder : holder c.shared (on t) = some t)
      (hrun : Run M (Minding U) d (ms.filter fun m => m.thread = t) d')
      (hd' : d'.threads t = .running q p) (hview : view (on t) d'.shared = view (on t) c.shared)
      (hd : d.threads t = .idle) (hnot : t ∉ order)
  | done (q : Q) (r : Except ε α)
      (hc : c.threads t = .done q r ∨ ∃ p, c.threads t = .running q p ∧ Ended p r)
      (hd : d.threads t = .done q r) (hmem : t ∈ order)

/-- The pool `d` in which the threads of `order` came one after another is as
good as `c`: it lacks what is done inside now, and no more. -/
structure Serial (M : Machine S ε α Q T X σ) (L : Locking S κ) (holder : σ → κ → Option T)
    (inv : σ → Prop) (view : κ → σ → τ) (on : T → κ) (U : T → S.Op → Prop) (c₀ : Pool S ε α Q T σ)
    (ms : List (Move Q T X)) (order : List T) (c d : Pool S ε α Q T σ) : Prop where
  now : inv c.shared
  then_ : inv d.shared
  run : Run M (Minding U) c₀ (order.flatMap (own ms c)) d
  nodup : order.Nodup
  free : ∀ t, holder c.shared (on t) = none → view (on t) d.shared = view (on t) c.shared
  stage : ∀ t, Stage M L holder view on U ms order c d t
  ended : ∀ t, .finish t ∈ ms → t ∈ order
  strict : ∀ ms₁ ms₂ t t' q, ms = ms₁ ++ ms₂ → .finish t ∈ ms₁ → .start t' q ∈ ms₂ → t' ∈ order →
    [t, t'].Sublist order

variable {c₀ c c' d d' : Pool S ε α Q T σ} {ms : List (Move Q T X)} {m : Move Q T X}
    {order added : List T}
  {t : T} {q : Q}

theorem thread_of_filter (hmem : m ∈ ms.filter fun m => m.thread = t) : m.thread = t := by
  simpa using (List.mem_filter.mp hmem).2

theorem filter_snoc_self : (ms ++ [m]).filter (fun m' => m'.thread = m.thread) =
    ms.filter (fun m' => m'.thread = m.thread) ++ [m] := by
  rw [List.filter_append, List.filter_cons_of_pos (by simp), List.filter_nil]

theorem filter_snoc_step {x : X} : (ms ++ [Move.step t x]).filter (fun m => m.thread = t) =
    ms.filter (fun m => m.thread = t) ++ [.step t x] :=
  filter_snoc_self (m := .step t x)

theorem filter_snoc_other (ht : t ≠ m.thread) : (ms ++ [m]).filter (fun m => m.thread = t) =
    ms.filter (fun m => m.thread = t) := by
  rw [List.filter_append, List.filter_cons_of_neg (by simpa using ht.symm), List.filter_nil,
    List.append_nil]

omit [DecidableEq T] in
/-- Two threads that have a lock have not the same. -/
theorem on_ne_of_holder {t' : T} (ht : t' ≠ t) (hholder : holder c.shared (on t) = some t)
    (hholder' : holder c.shared (on t') = some t') : on t' ≠ on t := fun heq => by
  rw [heq, hholder] at hholder'
  exact ht (Option.some.inj hholder').symm

theorem idle_of_next (hnext : next M (.start t q) c = some c') : c.threads t = .idle := by
  simp only [next] at hnext
  split at hnext
  · assumption
  · cases hnext

theorem done_of_next (hnext : next M (.finish t) c = some c') :
    ∃ q r, c'.threads t = .done q r := by
  rcases next_cases hnext with ⟨_, _, hmove, -⟩ | ⟨_, _, _, _, _, _, _, hmove, -⟩ |
    ⟨t', q, p, r, hmove, -, -, rfl⟩
  · cases hmove
  · cases hmove
  · cases hmove
    exact ⟨q, r, Function.update_self ..⟩

theorem own_other (ht : t ≠ m.thread) (hnext : next M m c = some c') :
    own (ms ++ [m]) c' t = own ms c t := by
  rw [own, own, filter_snoc_other ht, next_threads hnext ht]

theorem own_threads (hmem : m ∈ own ms c t) : m.thread = t := by
  rcases List.mem_append.mp hmem with hmem | hmem
  · exact thread_of_filter hmem
  · split at hmem
    · rw [List.mem_singleton.mp hmem]
      rfl
    · cases hmem

namespace Serial

/-- The next operation of a thread is one of its own. -/
theorem minding (hs : Serial M L holder inv view on U c₀ ms order c d) (m : Move Q T X) :
    Minding U c m := by
  intro t x q o k _ hrunning
  cases hs.stage t with
  | idle hc => cases hc.symm.trans hrunning
  | asks q' hc _ honce =>
      have hprogram := (Thread.running.inj (hc.symm.trans hrunning)).2
      rw [hprogram] at honce
      cases honce with
      | nothing hover =>
          obtain ⟨r, hended⟩ := hover
          exact absurd hended not_ended_op
      | acquire _ hU _ => exact hU
  | inside q' p d' hc hp =>
      have hprogram := (Thread.running.inj (hc.symm.trans hrunning)).2
      rw [hprogram] at hp
      cases hp with
      | work _ hU _ => exact hU
      | release _ hU _ => exact hU
  | done q' r hc =>
      rcases hc with hc | ⟨p, hc, hended⟩
      · cases hc.symm.trans hrunning
      · have hprogram := (Thread.running.inj (hc.symm.trans hrunning)).2
        rw [hprogram] at hended
        exact absurd hended not_ended_op

theorem idle_of_start (hs : Serial M L holder inv view on U c₀ ms order c d)
    (hidle : c.threads t = .idle) :
    ms.filter (fun m => m.thread = t) = [] ∧ d.threads t = .idle ∧ t ∉ order := by
  cases hs.stage t with
  | idle _ hms hd hnot => exact ⟨hms, hd, hnot⟩
  | asks _ hc => cases hidle.symm.trans hc
  | inside _ _ _ hc => cases hidle.symm.trans hc
  | done q r hc =>
      rcases hc with hc | ⟨p, hc, -⟩
      · cases hidle.symm.trans hc
      · cases hidle.symm.trans hc

/-- A move of one thread, which may come to the order with it. -/
theorem move (hM : Apart M inv view on U) (hs : Serial M L holder inv view on U c₀ ms order c d)
    (hnext : next M m c = some c') (hadded : ∀ t ∈ added, t = m.thread)
    (hnodup : (order ++ added).Nodup)
    (hrun : Run M (Minding U) d (added.flatMap (own (ms ++ [m]) c')) d')
    (hown : m.thread ∈ order → own (ms ++ [m]) c' m.thread = own ms c m.thread)
    (hmine : Stage M L holder view on U (ms ++ [m]) (order ++ added) c' d' m.thread)
    (hothers : ∀ t, t ≠ m.thread → holder c.shared (on t) = some t →
      holder c'.shared (on t) = some t ∧ view (on t) c'.shared = view (on t) c.shared ∧
        view (on t) d'.shared = view (on t) d.shared)
    (hfree : ∀ t, holder c'.shared (on t) = none → view (on t) d'.shared = view (on t) c'.shared)
    (hended : m = .finish m.thread → m.thread ∈ order) :
    Serial M L holder inv view on U c₀ (ms ++ [m]) (order ++ added) c' d' := by
  have hthreads : ∀ m' ∈ added.flatMap (own (ms ++ [m]) c'), m'.thread = m.thread := by
    intro m' hm'
    obtain ⟨t, ht, hmem⟩ := List.mem_flatMap.mp hm'
    rw [own_threads hmem, hadded t ht]
  obtain ⟨hinv, hd', -⟩ := hM.run_other hrun hthreads hs.then_
  have hin {t : T} (ht : t ≠ m.thread) : t ∈ order ++ added ↔ t ∈ order := by
    rw [List.mem_append, or_iff_left fun hmem => ht (hadded t hmem)]
  refine ⟨hM.keeps_next (hs.minding m) hs.now hnext, hinv, ?_, hnodup, hfree, fun t => ?_, ?_, ?_⟩
  · have hold : order.flatMap (own (ms ++ [m]) c') = order.flatMap (own ms c) := by
      apply List.flatMap_congr
      intro t ht
      by_cases htm : t = m.thread
      · rw [htm] at ht ⊢
        exact hown ht
      · exact own_other htm hnext
    rw [List.flatMap_append, hold]
    exact hs.run.append hrun
  · by_cases ht : t = m.thread
    · rw [ht]
      exact hmine
    have hc' := next_threads hnext ht
    -- what another thread did inside is replayed from `d'`
    cases hs.stage t with
    | idle hc hms hd hnot =>
        exact .idle (hc'.trans hc) ((filter_snoc_other ht).trans hms) ((hd' t ht).trans hd)
          fun hmem => hnot ((hin ht).mp hmem)
    | asks q hc hover honce hms hd hnot =>
        exact .asks q (hc'.trans hc) hover honce ((filter_snoc_other ht).trans hms)
          ((hd' t ht).trans hd) fun hmem => hnot ((hin ht).mp hmem)
    | inside q p e hc hp hholder hrun he hview hd hnot =>
        obtain ⟨hholder', hviewc, hviewd⟩ := hothers t ht hholder
        obtain ⟨e', hrun', hthread, hview'⟩ := hM.run_alone hrun
          (fun _ => thread_of_filter) hs.then_ hinv (hd' t ht) hviewd
        rw [← filter_snoc_other ht] at hrun'
        exact .inside q p e' (hc'.trans hc) hp hholder' hrun' (hthread.trans he)
          (hview'.trans (hview.trans hviewc.symm)) ((hd' t ht).trans hd) fun hmem =>
            hnot ((hin ht).mp hmem)
    | done q r hc hd hmem =>
        rw [← hc'] at hc
        exact .done q r hc ((hd' t ht).trans hd) ((hin ht).mpr hmem)
  · intro t hmem
    rcases List.mem_append.mp hmem with hmem | hmem
    · exact List.mem_append_left _ (hs.ended t hmem)
    · obtain rfl := List.mem_singleton.mp hmem
      exact List.mem_append_left _ (hended rfl)
  · intro ms₁ ms₂ t t' q hms hfinish hstart hmem
    obtain ⟨ms₃, m', rfl⟩ := (List.eq_nil_or_concat' ms₂).resolve_left (List.ne_nil_of_mem hstart)
    rw [← List.append_assoc] at hms
    obtain ⟨rfl, hm⟩ := List.append_inj' hms rfl
    obtain rfl := List.singleton_inj.mp hm
    have ht : t ∈ order := hs.ended t (List.mem_append_left _ hfinish)
    by_cases ht' : t' ∈ order
    · rcases List.mem_append.mp hstart with hstart | hstart
      · exact (hs.strict ms₁ ms₃ t t' q rfl hfinish hstart ht').trans (List.sublist_append_left ..)
      · obtain rfl := List.mem_singleton.mp hstart
        exact absurd ht' (hs.idle_of_start (idle_of_next hnext)).2.2
    · have hmem' := (List.mem_append.mp hmem).resolve_left ht'
      exact (List.singleton_sublist.mpr ht).append (List.singleton_sublist.mpr hmem')

/-- A move that brings its thread no further than it is in the order. -/
theorem stay (hM : Apart M inv view on U) (hs : Serial M L holder inv view on U c₀ ms order c d)
    (hnext : next M m c = some c')
    (hown : m.thread ∈ order → own (ms ++ [m]) c' m.thread = own ms c m.thread)
    (hmine : Stage M L holder view on U (ms ++ [m]) order c' d m.thread)
    (hothers : ∀ t, t ≠ m.thread → holder c.shared (on t) = some t →
      holder c'.shared (on t) = some t ∧ view (on t) c'.shared = view (on t) c.shared)
    (hfree : ∀ t, holder c'.shared (on t) = none →
      holder c.shared (on t) = none ∧ view (on t) c'.shared = view (on t) c.shared)
    (hended : m = .finish m.thread → m.thread ∈ order) :
    Serial M L holder inv view on U c₀ (ms ++ [m]) order c' d := by
  have hnil := List.append_nil order
  have hmoved : Serial M L holder inv view on U c₀ (ms ++ [m]) (order ++ []) c' d := by
    refine hs.move hM hnext (fun _ hmem => by cases hmem) (hnil.symm ▸ hs.nodup) .nil hown
      (hnil.symm ▸ hmine) ?_ ?_ hended
    · intro t ht hholder
      obtain ⟨hholder', hview⟩ := hothers t ht hholder
      exact ⟨hholder', hview, rfl⟩
    · intro t hnone
      obtain ⟨hnone', hview⟩ := hfree t hnone
      rw [hs.free t hnone', hview]
  rwa [hnil] at hmoved

/-- A move that leaves its thread nothing to do but to end. -/
theorem commit (hM : Apart M inv view on U) (hs : Serial M L holder inv view on U c₀ ms order c d)
    (hnext : next M m c = some c') {p : Prog S ε α} {r : Except ε α} (hnot : m.thread ∉ order)
    (hc' : c'.threads m.thread = .running q p) (hended : Ended p r)
    (hrun : Run M (Minding U) d (ms.filter (fun m' => m'.thread = m.thread) ++ [m]) d')
    (hd' : d'.threads m.thread = .running q p)
    (hothers : ∀ t, t ≠ m.thread → holder c.shared (on t) = some t →
      holder c'.shared (on t) = some t ∧ view (on t) c'.shared = view (on t) c.shared ∧
        view (on t) d'.shared = view (on t) d.shared)
    (hfree : ∀ t, holder c'.shared (on t) = none → view (on t) d'.shared = view (on t) c'.shared) :
    ∃ d'', Serial M L holder inv view on U c₀ (ms ++ [m]) (order ++ [m.thread]) c' d'' := by
  have hfinish : next M (.finish m.thread : Move Q T X) d' =
      some ⟨Function.update d'.threads m.thread (.done q r), M.leave m.thread q r d'.shared⟩ := by
    cases hended <;> simp only [next, hd']
  have hminding : Minding U d' (.finish m.thread : Move Q T X) :=
    fun _ _ _ _ _ hmove => by cases hmove
  have hviews (t : T) : view (on t) (M.leave m.thread q r d'.shared) = view (on t) d'.shared :=
    (hM.leave m.thread q r d'.shared).2 _
  have hblock : own (ms ++ [m]) c' m.thread =
      ms.filter (fun m' => m'.thread = m.thread) ++ [m] ++ [.finish m.thread] := by
    rw [own, filter_snoc_self, hc']
  have hrun' := Run.snoc _ hminding hfinish hrun
  rw [← hblock, ← List.flatMap_singleton (own (ms ++ [m]) c') m.thread] at hrun'
  have hnodup : (order ++ [m.thread]).Nodup :=
    List.Nodup.append hs.nodup (List.nodup_singleton _) (by simpa using hnot)
  refine ⟨_, hs.move hM hnext (fun t ht => List.mem_singleton.mp ht) hnodup hrun'
    (fun hmem => absurd hmem hnot) ?_ ?_ ?_ ?_⟩
  · exact .done q r (.inr ⟨p, hc', hended⟩) (Function.update_self ..)
      (List.mem_append_right _ List.mem_cons_self)
  · intro t ht hholder
    obtain ⟨hholder', hview, hview'⟩ := hothers t ht hholder
    exact ⟨hholder', hview, (hviews t).trans hview'⟩
  · intro t hnone
    exact (hviews t).trans (hfree t hnone)
  · intro hm
    rw [hm] at hnext
    obtain ⟨q', r', hdone⟩ := done_of_next hnext
    cases hdone.symm.trans hc'

section Cases

variable [DecidableEq κ] (hT : Turns M L holder inv view on U)
  (hs : Serial M L holder inv view on U c₀ ms order c d)

include hT hs

/-- A thread that starts alone after the others. -/
theorem run_start (hd : d.threads t = .idle) : ∃ d', Run M (Minding U) d [.start t q] d' ∧
    d'.threads t = .running q (M.program q) ∧ inv d'.shared ∧
      ∀ t', view (on t') d'.shared = view (on t') d.shared := by
  have hnext : next M (.start t q : Move Q T X) d =
      some ⟨Function.update d.threads t (.running q (M.program q)), M.enter t q d.shared⟩ := by
    simp only [next, hd]
  have henter := hT.apart.enter t q d.shared
  exact ⟨_, .snoc _ (fun _ _ _ _ _ hmove => by cases hmove) hnext .nil, Function.update_self ..,
    henter.1 hs.then_, fun _ => henter.2 _⟩

theorem start (honce : (M.program q).Once L (U t) (on t))
    (hnext : next M (.start t q) c = some c') :
    ∃ order d', Serial M L holder inv view on U c₀ (ms ++ [.start t q]) order c' d' := by
  obtain ⟨hms, hd, hnot⟩ := hs.idle_of_start (idle_of_next hnext)
  have hc' : c' = ⟨Function.update c.threads t (.running q (M.program q)),
      M.enter t q c.shared⟩ := by
    simp only [next, idle_of_next hnext] at hnext
    exact (Option.some.inj hnext).symm
  subst hc'
  have hholder : holder (M.enter t q c.shared) = holder c.shared := hT.guards.enter t q c.shared
  have hviews (i : κ) : view i (M.enter t q c.shared) = view i c.shared :=
    (hT.apart.enter t q c.shared).2 i
  by_cases hover : (M.program q).Over
  · obtain ⟨r, hended⟩ := hover
    obtain ⟨d', hrun, hd', -, hviews'⟩ := run_start hT hs (q := q) hd
    obtain ⟨d'', hserial⟩ := hs.commit hT.apart hnext hnot (Function.update_self ..) hended
      (hms.symm ▸ hrun) hd'
      (fun t' _ hmine => ⟨(congrFun hholder _).trans hmine, hviews _, hviews' t'⟩)
      fun t' hnone => by
        rw [hviews', hs.free t' ((congrFun hholder _).symm.trans hnone)]
        exact (hviews _).symm
    exact ⟨_, d'', hserial⟩
  · have hmine : Stage M L holder view on U (ms ++ [.start t q]) order
        ⟨Function.update c.threads t (.running q (M.program q)), M.enter t q c.shared⟩ d t := by
      refine .asks q (Function.update_self ..) hover honce ?_ hd hnot
      exact (filter_snoc_self (m := .start t q)).trans (congrArg (· ++ [Move.start t q]) hms)
    exact ⟨order, d, hs.stay hT.apart hnext (fun hmem => absurd hmem hnot) hmine
      (fun t' _ hmine => ⟨(congrFun hholder _).trans hmine, hviews _⟩)
      (fun t' hnone => ⟨(congrFun hholder _).symm.trans hnone, hviews _⟩) fun hmove => by
        cases hmove⟩

variable {x : X} {o : S.Op} {k : S.Ans o → Prog S ε α} {r : S.Ans o} {shared : σ}

/-- A thread gets its lock, in the order or with its lock to give back. -/
theorem acquire (hrunning : c.threads t = .running q (.op o k))
    (hprogram : M.program q = .op o k) (ho : L.kind o = .acquire (on t))
    (hk : ∀ r, (L.granted o r → (k r).Inside L (U t) (on t)) ∧ (¬ L.granted o r → (k r).Over))
    (hms : ms.filter (fun m => m.thread = t) = [.start t q])
    (hd : d.threads t = .idle) (hnot : t ∉ order) (hact : M.act x t o c.shared = some (r, shared)) :
    ∃ order d', Serial M L holder inv view on U c₀ (ms ++ [.step t x]) order
      ⟨Function.update c.threads t (.running q (k r)), shared⟩ d' := by
  have hnext := next_step hrunning hact
  have hminding := hs.minding (.step t x)
  obtain ⟨d₁, hrun₁, hd₁, hinv₁, hviews₁⟩ := run_start hT hs (q := q) hd
  rw [hprogram] at hd₁
  have hminding₁ : Minding U d₁ (.step t x) :=
    minding_congr (m := .step t x) (hd₁.trans hrunning.symm) hminding
  by_cases hr : L.granted o r
  · obtain ⟨hfree, hholder⟩ := (hT.guards.grant x t o c.shared (on t) r shared ho hact).1 hr
    have hview : view (on t) d₁.shared = view (on t) c.shared := (hviews₁ t).trans (hs.free t hfree)
    obtain ⟨d₂, hnext₂, hd₂, hview₂⟩ := hT.apart.next_alone (m := .step t x) hminding hs.now hinv₁
      (hd₁.trans hrunning.symm) hview hnext
    have hapart {t' : T} (ht' : on t' ≠ on t) :
        holder shared (on t') = holder c.shared (on t') ∧
          view (on t') shared = view (on t') c.shared := by
      rw [hholder, Function.update_of_ne ht']
      exact ⟨rfl, hT.apart.next_view (m := .step t x) hminding hs.now ht' hnext⟩
    have hrun₂ : Run M (Minding U) d ((ms ++ [Move.step t x]).filter fun m => m.thread = t) d₂ := by
      rw [filter_snoc_step, hms]
      exact .snoc _ hminding₁ hnext₂ hrun₁
    have hmine : Stage M L holder view on U (ms ++ [.step t x]) order
        ⟨Function.update c.threads t (.running q (k r)), shared⟩ d t := by
      refine .inside q (k r) d₂ (Function.update_self ..) ((hk r).1 hr) ?_ hrun₂ ?_ hview₂ hd hnot
      · rw [hholder, Function.update_self]
      · exact hd₂.trans (Function.update_self ..)
    refine ⟨order, d, hs.stay hT.apart hnext (fun hmem => absurd hmem hnot) hmine
      (fun t' _ hholder' => ?_) (fun t' hnone => ?_) fun hmove => by cases hmove⟩
    · have ht' : on t' ≠ on t := fun heq => by
        rw [heq, hfree] at hholder'
        cases hholder'
      exact ⟨(hapart ht').1.trans hholder', (hapart ht').2⟩
    · have ht' : on t' ≠ on t := fun heq => by
        rw [heq] at hnone
        change holder shared (on t) = none at hnone
        rw [hholder, Function.update_self] at hnone
        cases hnone
      exact ⟨(hapart ht').1.symm.trans hnone, (hapart ht').2⟩
  -- without its lock the thread only ends, so it comes to the order at once
  · have hholder := (hT.guards.grant x t o c.shared (on t) r shared ho hact).2 hr
    obtain ⟨hviews, u, hact', hviews'⟩ :=
      hT.refuse x t o (on t) c.shared r shared d₁.shared ho hact hr
    obtain ⟨r', hended⟩ := (hk r).2 hr
    obtain ⟨d', hserial⟩ := hs.commit hT.apart hnext hnot (Function.update_self ..) hended
      (.snoc _ hminding₁ (next_step hd₁ hact') (hms.symm ▸ hrun₁)) (Function.update_self ..)
      (fun t' _ hmine => ⟨(congrFun hholder _).trans hmine, hviews _,
        (hviews' _).trans (hviews₁ t')⟩)
      fun t' hnone => by
        have hnone' : holder c.shared (on t') = none := (congrFun hholder _).symm.trans hnone
        exact ((hviews' _).trans (hviews₁ t')).trans ((hs.free t' hnone').trans (hviews _).symm)
    exact ⟨_, d', hserial⟩

/-- A thread works inside, in its own part. -/
theorem work (hrunning : c.threads t = .running q (.op o k))
    (ho : L.kind o = .other) (hp : (k r).Inside L (U t) (on t))
    (hholder : holder c.shared (on t) = some t)
    (hrun : Run M (Minding U) d (ms.filter fun m => m.thread = t) d')
    (hd' : d'.threads t = .running q (.op o k))
    (hview : view (on t) d'.shared = view (on t) c.shared)
    (hd : d.threads t = .idle) (hnot : t ∉ order) (hact : M.act x t o c.shared = some (r, shared)) :
    Serial M L holder inv view on U c₀ (ms ++ [.step t x]) order
      ⟨Function.update c.threads t (.running q (k r)), shared⟩ d := by
  have hnext := next_step hrunning hact
  have hminding := hs.minding (.step t x)
  have hinv' : inv d'.shared :=
    (hT.apart.run_other hrun (fun _ => thread_of_filter) hs.then_).1
  obtain ⟨e, hnext', he, hview'⟩ := hT.apart.next_alone (m := .step t x) hminding hs.now hinv'
    (hd'.trans hrunning.symm) hview hnext
  obtain ⟨r', shared', hact', hholder'⟩ := hT.guards.other x t o c.shared ho
  obtain ⟨rfl, rfl⟩ := Prod.mk.inj (Option.some.inj (hact.symm.trans hact'))
  have hminding' : Minding U d' (.step t x) :=
    minding_congr (m := .step t x) (hd'.trans hrunning.symm) hminding
  have hmine : Stage M L holder view on U (ms ++ [.step t x]) order
      ⟨Function.update c.threads t (.running q (k r)), shared⟩ d t := by
    refine .inside q (k r) e (Function.update_self ..) hp ?_ ?_ (he.trans (Function.update_self ..))
      hview' hd hnot
    · exact (congrFun hholder' _).trans hholder
    · rw [filter_snoc_step]
      exact .snoc _ hminding' hnext' hrun
  refine hs.stay hT.apart hnext (fun hmem => absurd hmem hnot) hmine (fun t' ht hmine' => ?_)
    (fun t' hnone => ?_) fun hmove => by cases hmove
  · have ht' := on_ne_of_holder ht hholder hmine'
    exact ⟨(congrFun hholder' _).trans hmine', hT.apart.next_view (m := .step t x) hminding
      hs.now ht' hnext⟩
  · have hnone' : holder c.shared (on t') = none := (congrFun hholder' _).symm.trans hnone
    have ht' : on t' ≠ on t := fun heq => by
      rw [heq, hholder] at hnone'
      cases hnone'
    exact ⟨hnone', hT.apart.next_view (m := .step t x) hminding hs.now ht' hnext⟩

/-- A thread that gives its lock back comes to the order. -/
theorem release (hrunning : c.threads t = .running q (.op o k)) (ho : L.kind o = .release (on t))
    (hover : (k r).Over) (hholder : holder c.shared (on t) = some t)
    (hrun : Run M (Minding U) d (ms.filter fun m => m.thread = t) d')
    (hd' : d'.threads t = .running q (.op o k))
    (hview : view (on t) d'.shared = view (on t) c.shared)
    (hnot : t ∉ order) (hact : M.act x t o c.shared = some (r, shared)) :
    ∃ e, Serial M L holder inv view on U c₀ (ms ++ [.step t x]) (order ++ [t])
      ⟨Function.update c.threads t (.running q (k r)), shared⟩ e := by
  have hnext := next_step hrunning hact
  have hminding := hs.minding (.step t x)
  obtain ⟨hinv', -, hviews⟩ := hT.apart.run_other hrun (fun _ => thread_of_filter) hs.then_
  obtain ⟨e, hnext', he, hview'⟩ := hT.apart.next_alone (m := .step t x) hminding hs.now hinv'
    (hd'.trans hrunning.symm) hview hnext
  have hminding' : Minding U d' (.step t x) :=
    minding_congr (m := .step t x) (hd'.trans hrunning.symm) hminding
  obtain ⟨r', shared', hact', hholder'⟩ := hT.guards.release x t o c.shared (on t) ho
  obtain ⟨rfl, rfl⟩ := Prod.mk.inj (Option.some.inj (hact.symm.trans hact'))
  -- the parts of the other keys are as they were
  have hapart {t' : T} (ht' : on t' ≠ on t) : holder shared (on t') = holder c.shared (on t') ∧
      view (on t') shared = view (on t') c.shared ∧
        view (on t') e.shared = view (on t') d.shared := by
    refine ⟨?_, hT.apart.next_view (m := .step t x) hminding hs.now ht' hnext, ?_⟩
    · rw [hholder', Function.update_of_ne ht']
    · rw [hT.apart.next_view (m := .step t x) hminding' hinv' ht' hnext', hviews t' ht']
  obtain ⟨r', hended⟩ := hover
  refine hs.commit hT.apart hnext hnot (Function.update_self ..) hended
    (.snoc _ hminding' hnext' hrun)
    (he.trans (Function.update_self ..)) (fun t' ht hmine => ?_) fun t' hnone => ?_
  · have ht' := on_ne_of_holder ht hholder hmine
    obtain ⟨hholder₁, hviewc, hviewe⟩ := hapart ht'
    exact ⟨hholder₁.trans hmine, hviewc, hviewe⟩
  · by_cases ht' : on t' = on t
    · rw [ht']
      exact hview'
    · obtain ⟨hholder₁, hviewc, hviewe⟩ := hapart ht'
      rw [hviewe, hs.free t' (hholder₁.symm.trans hnone)]
      exact hviewc.symm

theorem finish {p : Prog S ε α} {r : Except ε α} (hrunning : c.threads t = .running q p)
    (hended : Ended p r) (hnext : next M (.finish t : Move Q T X) c = some c')
    (hc' : c' = ⟨Function.update c.threads t (.done q r), M.leave t q r c.shared⟩) :
    Serial M L holder inv view on U c₀ (ms ++ [.finish t]) order c' d := by
  have hdone : d.threads t = .done q r ∧ t ∈ order := by
    cases hs.stage t with
    | idle hc => cases hc.symm.trans hrunning
    | asks q' hc hover =>
        obtain ⟨-, rfl⟩ := Thread.running.inj (hc.symm.trans hrunning)
        exact absurd ⟨r, hended⟩ hover
    | inside q' p' _ hc hp =>
        obtain ⟨-, rfl⟩ := Thread.running.inj (hc.symm.trans hrunning)
        cases hp <;> exact absurd hended not_ended_op
    | done q' r' hc hd hmem =>
        rcases hc with hc | ⟨p', hc, hended'⟩
        · cases hc.symm.trans hrunning
        · obtain ⟨rfl, rfl⟩ := Thread.running.inj (hc.symm.trans hrunning)
          obtain rfl := ended_unique hended hended'
          exact ⟨hd, hmem⟩
  obtain ⟨hd, hmem⟩ := hdone
  subst hc'
  have hholder := hT.guards.leave t q r c.shared
  have hviews (i : κ) : view i (M.leave t q r c.shared) = view i c.shared :=
    (hT.apart.leave t q r c.shared).2 i
  have hmine : Stage M L holder view on U (ms ++ [.finish t]) order
      ⟨Function.update c.threads t (.done q r), M.leave t q r c.shared⟩ d t :=
    .done q r (.inl (Function.update_self ..)) hd hmem
  refine hs.stay hT.apart hnext (fun _ => ?_) hmine
    (fun t' _ hmine' => ⟨(congrFun hholder _).trans hmine', hviews _⟩)
    (fun t' hnone => ⟨(congrFun hholder _).symm.trans hnone, hviews _⟩) fun _ => hmem
  rw [own, own, filter_snoc_self (m := .finish t)]
  simp only [Move.thread, Function.update_self, hrunning, List.append_nil]

theorem step (honce : ∀ t q, m = .start t q → (M.program q).Once L (U t) (on t))
    (hnext : next M m c = some c') :
    ∃ order d', Serial M L holder inv view on U c₀ (ms ++ [m]) order c' d' := by
  rcases next_cases hnext with ⟨t, q, rfl, -, -⟩ | ⟨t, x, q, o, k, r, s, rfl, hrunning, hact, rfl⟩ |
    ⟨t, q, p, r, rfl, hrunning, hended, hc'⟩
  · exact hs.start hT (honce t q rfl) hnext
  · cases hs.stage t with
    | idle hc => cases hc.symm.trans hrunning
    | asks q' hc hover honce hms hd hnot =>
        obtain ⟨rfl, hprogram⟩ := Thread.running.inj (hc.symm.trans hrunning)
        rw [hprogram] at honce
        cases honce with
        | nothing hover' => exact absurd (hprogram ▸ hover') hover
        | acquire ho _ hk => exact hs.acquire hT hrunning hprogram ho hk hms hd hnot hact
    | inside q' p d' hc hp hholder hrun hd' hview hd hnot =>
        obtain ⟨rfl, rfl⟩ := Thread.running.inj (hc.symm.trans hrunning)
        cases hp with
        | work ho _ hk =>
            exact ⟨_, _, hs.work hT hrunning ho (hk r) hholder hrun hd' hview hd hnot hact⟩
        | release ho _ hk =>
            exact ⟨_, hs.release hT hrunning ho (hk r) hholder hrun hd' hview hnot hact⟩
    | done q' r' hc =>
        rcases hc with hc | ⟨p, hc, hended⟩
        · cases hc.symm.trans hrunning
        · obtain ⟨-, rfl⟩ := Thread.running.inj (hc.symm.trans hrunning)
          exact absurd hended not_ended_op
  · exact ⟨_, _, hs.finish hT hrunning hended hnext hc'⟩

end Cases

end Serial

/-- Threads that do their work inside could have come one after another, in
an order in which none comes before one that ended before it started. -/
theorem Turns.serial [DecidableEq κ] {P : Pool S ε α Q T σ → Move Q T X → Prop}
    (hT : Turns M L holder inv view on U) (hidle : ∀ t, c₀.threads t = .idle) (hinv : inv c₀.shared)
    (hP : ∀ c t q, P c (.start t q) → (M.program q).Once L (U t) (on t)) (hc : Run M P c₀ ms c) :
    ∃ order d, Serial M L holder inv view on U c₀ ms order c d := by
  induction hc with
  | nil =>
      refine ⟨[], c₀, hinv, hinv, .nil, List.nodup_nil, fun _ _ => rfl, fun t => ?_, ?_, ?_⟩
      · exact .idle (hidle t) rfl (hidle t) List.not_mem_nil
      · intro t hmem
        cases hmem
      · intro ms₁ ms₂ t t' q _ _ _ hmem
        cases hmem
  | snoc m hm hnext _ ih =>
      obtain ⟨order, d, hs⟩ := ih
      refine hs.step hT ?_ hnext
      rintro t q rfl
      exact hP _ t q hm

theorem Serial.done {r : Except ε α} (hs : Serial M L holder inv view on U c₀ ms order c d)
    (hdone : c.threads t = .done q r) : t ∈ order ∧ d.threads t = .done q r := by
  cases hs.stage t with
  | idle hc => cases hc.symm.trans hdone
  | asks _ hc => cases hc.symm.trans hdone
  | inside _ _ _ hc => cases hc.symm.trans hdone
  | done q' r' hc hd hmem =>
      rcases hc with hc | ⟨p, hc, -⟩
      · obtain ⟨rfl, rfl⟩ := Thread.done.inj (hc.symm.trans hdone)
        exact ⟨hmem, hd⟩
      · cases hc.symm.trans hdone

end Pool
