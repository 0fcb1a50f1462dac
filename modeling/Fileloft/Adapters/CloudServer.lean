import Fileloft.Adapters.ProcessLocker
import Fileloft.Server.Ending

/-!
# The server over a cloud backend

The clients of the handler together with the locker of the server. What an
`acquire` does inside the locker is spread over steps that no client sees.
-/

namespace Fileloft

open Pool

/-- The clients, and the locker that they share. -/
structure Server (σ γ : Type) where
  clients : Clients σ γ
  locker : ProcessLocker.LockerState ℕ

inductive ServerMove where
  /-- A move that no locker is asked about. -/
  | client (m : ClientMove)
  | locker (t : ℕ) (m : ProcessLocker.Move)
  /-- `acquire` returns the lock. -/
  | granted (t : ℕ) (env : Env)
  /-- The timeout drops the future of `acquire`. -/
  | timedOut (t : ℕ) (env : Env)
  | released (t : ℕ) (env : Env)

namespace ServerMove

/-- What the clients see of a move. -/
def visible : ServerMove → Option ClientMove
  | .client m => some m
  | .locker _ _ => none
  | .granted t env | .timedOut t env | .released t env => some (.step t env)

/-- No request comes in. -/
def serves : ServerMove → Bool
  | .client (.start _ _) => false
  | _ => true

/-- No request comes in, and no `acquire` times out. -/
def patient : ServerMove → Bool
  | .client (.start _ _) | .timedOut _ _ => false
  | _ => true

end ServerMove

/-- The upload whose lock the client awaits. -/
def asking : Thread HandlerSig Halt TusResponse TusRequest → Option UploadId
  | .running _ (.op (.acquire id) _) => some id
  | _ => none

/-- The upload whose lock the client is about to release. -/
def releasing : Thread HandlerSig Halt TusResponse TusRequest → Option UploadId
  | .running _ (.op (.release id) _) => some id
  | _ => none

namespace Server

variable {σ γ : Type}

def opened (store : σ) (notes : γ) : Server σ γ := ⟨Fileloft.opened store notes, .initial⟩

variable (h : TusHandler) (impl : Interp StoreSig σ) (obs : Observer σ γ) (s : Server σ γ)

/-- The client's next operation is on the locker. -/
def atLocker : ClientMove → Bool
  | .step t _ => (asking (s.clients.threads t)).isSome || (releasing (s.clients.threads t)).isSome
  | _ => false

def see (m : ClientMove) (locker : ProcessLocker.LockerState ℕ) : Option (Server σ γ) :=
  (Pool.next (Fileloft.clients h impl obs) m s.clients).map fun c => ⟨c, locker⟩

/-- The client goes on with the lock. The clients' table of locks is not
asked for it. -/
def grant (t : ℕ) (env : Env) : Option (Server σ γ) :=
  match s.clients.threads t with
  | .running q (.op (.acquire id) k) =>
    match env.acquire id, s.locker.pc t with
    | .ok u, .holding _ _ => some
      ⟨⟨Function.update s.clients.threads t (.running q (k (.ok u))),
        s.clients.shared.granted obs t id⟩, s.locker⟩
    | _, _ => none
  | _ => none

def next : ServerMove → Option (Server σ γ)
  | .client m => if s.atLocker m then none else s.see h impl obs m s.locker
  | .locker t m =>
    match asking (s.clients.threads t) with
    | some id =>
      if m.acquires id.val then (s.locker.step t m).map fun locker => ⟨s.clients, locker⟩
      else none
    | none => none
  | .granted t env => s.grant obs t env
  | .timedOut t env =>
    match asking (s.clients.threads t) with
    | some id =>
      if env.acquire id = .error (.lockTimeout id.val) then
        (s.locker.step t .cancel).bind (s.see h impl obs (.step t env))
      else none
    | none => none
  | .released t env =>
    match releasing (s.clients.threads t) with
    | some _ => (s.locker.step t .drop).bind (s.see h impl obs (.step t env))
    | none => none

/-- The servers that allowed moves reach from a fresh one. What is allowed
depends on what the clients see. -/
inductive Serves (P : Clients σ γ → ClientMove → Prop) (store : σ) (notes : γ) :
    Server σ γ → Prop where
  | opened : Serves P store notes (opened store notes)
  | move {s s' : Server σ γ} (m : ServerMove) (hP : ∀ v, m.visible = some v → P s.clients v)
      (hnext : s.next h impl obs m = some s') : Serves P store notes s → Serves P store notes s'

/-- A lock that a client has is its own in the locker, and a client that has
none is in the locker only to ask. -/
structure Carried (s : Server σ γ) : Prop where
  kept : s.locker.Kept
  held : ∀ t id, s.clients.shared.holder id = some t → ∃ lock, s.locker.pc t = .holding id.val lock
  free : ∀ t, (∀ id, s.clients.shared.holder id ≠ some t) → s.locker.pc t = .idle ∨
    ∃ id, asking (s.clients.threads t) = some id ∧ (s.locker.pc t).wants = some id.val

variable {h impl obs s} {s' : Server σ γ} {m : ServerMove} {P : Clients σ γ → ClientMove → Prop}
  {store : σ} {notes : γ}

theorem carried_opened : (opened store notes).Carried where
  kept := ProcessLocker.LockerState.kept_initial
  held t id hid := by cases hid
  free t _ := .inl rfl

/-! ## What a move does -/

theorem asking_eq_some {th : Thread HandlerSig Halt TusResponse TusRequest} {id : UploadId} :
    asking th = some id ↔ ∃ q k, th = .running q (.op (.acquire id) k) := by
  constructor
  · intro hid
    unfold asking at hid
    split at hid
    · next q id' k =>
        obtain rfl := Option.some.inj hid
        exact ⟨q, k, rfl⟩
    · cases hid
  · rintro ⟨q, k, rfl⟩
    rfl

theorem releasing_eq_some {th : Thread HandlerSig Halt TusResponse TusRequest} {id : UploadId} :
    releasing th = some id ↔ ∃ q k, th = .running q (.op (.release id) k) := by
  constructor
  · intro hid
    unfold releasing at hid
    split at hid
    · next q id' k =>
        obtain rfl := Option.some.inj hid
        exact ⟨q, k, rfl⟩
    · cases hid
  · rintro ⟨q, k, rfl⟩
    rfl

theorem see_eq_some {v : ClientMove} {locker : ProcessLocker.LockerState ℕ} :
    s.see h impl obs v locker = some s' ↔
      Pool.next (Fileloft.clients h impl obs) v s.clients = some s'.clients ∧
        s'.locker = locker := by
  unfold see
  rw [Option.map_eq_some_iff]
  constructor
  · rintro ⟨c, hc, rfl⟩
    exact ⟨hc, rfl⟩
  · rintro ⟨hc, rfl⟩
    exact ⟨_, hc, rfl⟩

/-- A client moves by itself, goes on inside the locker, comes out of it with
the lock or without, or gives the lock back. -/
theorem next_cases (hnext : s.next h impl obs m = some s') :
    (∃ v, m = .client v ∧ s.atLocker v = false ∧ s'.locker = s.locker ∧
      Pool.next (Fileloft.clients h impl obs) v s.clients = some s'.clients) ∨
    (∃ t id w, m = .locker t w ∧ asking (s.clients.threads t) = some id ∧ w.acquires id.val = true ∧
      s.locker.step t w = some s'.locker ∧ s'.clients = s.clients) ∨
    (∃ t env q id k id' lock, m = .granted t env ∧ s.clients.threads t =
      .running q (.op (.acquire id) k) ∧
      env.acquire id = .ok () ∧ s.locker.pc t = .holding id' lock ∧ s'.locker = s.locker ∧
      s'.clients = ⟨Function.update s.clients.threads t (.running q (k (.ok ()))),
        s.clients.shared.granted obs t id⟩) ∨
    (∃ t env id, m = .timedOut t env ∧ asking (s.clients.threads t) = some id ∧
      env.acquire id = .error (.lockTimeout id.val) ∧ s.locker.step t .cancel = some s'.locker ∧
      Pool.next (Fileloft.clients h impl obs) (.step t env) s.clients = some s'.clients) ∨
    ∃ t env id, m = .released t env ∧ releasing (s.clients.threads t) = some id ∧
      s.locker.step t .drop = some s'.locker ∧
      Pool.next (Fileloft.clients h impl obs) (.step t env) s.clients = some s'.clients := by
  cases m with
  | client v =>
      simp only [next] at hnext
      split at hnext
      · cases hnext
      · next hv =>
          obtain ⟨hc, hlocker⟩ := see_eq_some.mp hnext
          exact .inl ⟨v, rfl, Bool.eq_false_iff.mpr hv, hlocker, hc⟩
  | locker t w =>
      simp only [next] at hnext
      split at hnext
      · next id hid =>
          split at hnext
          · next hw =>
              obtain ⟨locker, hstep, rfl⟩ := Option.map_eq_some_iff.mp hnext
              exact .inr (.inl ⟨t, id, w, rfl, hid, hw, hstep, rfl⟩)
          · cases hnext
      · cases hnext
  | granted t env =>
      simp only [next, grant] at hnext
      split at hnext
      · next q id k hrunning =>
          split at hnext
          · next u id' lock henv hpc =>
              obtain rfl := Option.some.inj hnext
              exact .inr (.inr (.inl ⟨t, env, q, id, k, id', lock, rfl, hrunning, henv,
                hpc, rfl, rfl⟩))
          · cases hnext
      · cases hnext
  | timedOut t env =>
      simp only [next] at hnext
      split at hnext
      · next id hid =>
          split at hnext
          · next henv =>
              obtain ⟨locker, hstep, hsee⟩ := Option.bind_eq_some_iff.mp hnext
              obtain ⟨hc, rfl⟩ := see_eq_some.mp hsee
              exact .inr (.inr (.inr (.inl ⟨t, env, id, rfl, hid, henv, hstep, hc⟩)))
          · cases hnext
      · cases hnext
  | released t env =>
      simp only [next] at hnext
      split at hnext
      · next id hid =>
          obtain ⟨locker, hstep, hsee⟩ := Option.bind_eq_some_iff.mp hnext
          obtain ⟨hc, rfl⟩ := see_eq_some.mp hsee
          exact .inr (.inr (.inr (.inr ⟨t, env, id, rfl, hid, hstep, hc⟩)))
      · cases hnext

/-! ## The clients' table of locks -/

/-- The locks a client has are those its handler has still to release. -/
def Held (c : Clients σ γ) : Prop := ∀ t, Holding handlerLocking c.shared.holder t (c.threads t)

variable {c c' : Clients σ γ} {v : ClientMove} {t : ℕ} {id : UploadId} {env : Env}

theorem held_of_reach (hc : Reach (Fileloft.clients h impl obs) P (Fileloft.opened store notes) c) :
    Held c := guards_clients.holding (fun _ => rfl) (fun _ => rfl) hc

theorem not_holder_of_asking (hc : Held c) (hid : asking (c.threads t) = some id) (id' : UploadId) :
    c.shared.holder id' ≠ some t := by
  obtain ⟨q, k, hrunning⟩ := asking_eq_some.mp hid
  have hholding := hc t
  rw [hrunning] at hholding
  obtain ⟨held, hlocks, hheld⟩ := hholding
  obtain ⟨rfl, -⟩ := (Prog.locks_acquire (i := id) rfl).mp hlocks
  intro hholder
  cases (hheld id').mp hholder

theorem holder_of_releasing (hc : Held c) (hid : releasing (c.threads t) = some id)
    (id' : UploadId) :
    c.shared.holder id' = some t ↔ id' = id := by
  obtain ⟨q, k, hrunning⟩ := releasing_eq_some.mp hid
  have hholding := hc t
  rw [hrunning] at hholding
  obtain ⟨held, hlocks, hheld⟩ := hholding
  obtain ⟨rfl, -⟩ := (Prog.locks_release (i := id) rfl).mp hlocks
  rw [hheld id', Option.some.injEq, eq_comm]

/-- A move that is not on the locker leaves the table as it is, and who moved
awaited no lock. -/
theorem next_apart (hv : s.atLocker v = false)
    (hnext : Pool.next (Fileloft.clients h impl obs) v s.clients = some c) :
    c.shared.holder = s.clients.shared.holder ∧
      ∃ t, asking (s.clients.threads t) = none ∧ ∀ t', t' ≠ t →
        c.threads t' = s.clients.threads t' := by
  rcases Pool.next_cases hnext with ⟨t, q, rfl, hidle, rfl⟩ |
    ⟨t, env, q, o, k, r, shared, rfl, hrunning, hact, rfl⟩ |
      ⟨t, q, p, r, rfl, hrunning, hended, rfl⟩
  · exact ⟨rfl, t, by rw [hidle]; rfl, fun t' ht => Function.update_of_ne ht ..⟩
  · simp only [atLocker, hrunning] at hv
    have hother : handlerLocking.kind o = .other := by
      cases o with
      | acquire id => cases hv
      | release id => cases hv
      | _ => rfl
    obtain ⟨r', shared', hact', hholder⟩ :=
      (@guards_clients h _ _ impl obs).other env t o s.clients.shared hother
    obtain ⟨rfl, rfl⟩ := Prod.mk.inj (Option.some.inj (hact.symm.trans hact'))
    refine ⟨hholder, t, ?_, fun t' ht => Function.update_of_ne ht ..⟩
    rw [hrunning]
    cases o with
    | acquire id => cases hv
    | _ => rfl
  · refine ⟨rfl, t, ?_, fun t' ht => Function.update_of_ne ht ..⟩
    rw [hrunning]
    cases hended <;> rfl

theorem next_refused (hid : asking (c.threads t) = some id)
    {e : TusError} (henv : env.acquire id = .error e)
    (hnext : Pool.next (Fileloft.clients h impl obs) (.step t env) c = some c') :
    c'.shared.holder = c.shared.holder ∧ ∀ t', t' ≠ t → c'.threads t' = c.threads t' := by
  obtain ⟨q, k, hrunning⟩ := asking_eq_some.mp hid
  simp only [Pool.next, hrunning, Fileloft.clients, act, henv, Option.map_some] at hnext
  obtain rfl := Option.some.inj hnext
  exact ⟨rfl, fun t' ht => Function.update_of_ne ht ..⟩

theorem next_released (hid : releasing (c.threads t) = some id)
    (hnext : Pool.next (Fileloft.clients h impl obs) (.step t env) c = some c') :
    c'.shared.holder = Function.update c.shared.holder id none ∧
      ∀ t', t' ≠ t → c'.threads t' = c.threads t' := by
  obtain ⟨q, k, hrunning⟩ := releasing_eq_some.mp hid
  simp only [Pool.next, hrunning, Fileloft.clients, act, Option.map_some] at hnext
  obtain rfl := Option.some.inj hnext
  exact ⟨rfl, fun t' ht => Function.update_of_ne ht ..⟩

/-- A client that comes out of the locker with a lock finds it free in the
clients' table. -/
theorem Carried.holder_eq_none (hs : s.Carried) (hheld : Held s.clients)
    (hid : asking (s.clients.threads t) = some id) {id' : Str} {lock : ℕ}
    (hpc : s.locker.pc t = .holding id' lock) :
    id' = id.val ∧ s.clients.shared.holder id = none := by
  have hnone := not_holder_of_asking hheld hid
  obtain rfl : id' = id.val := by
    rcases hs.free t hnone with hidle | ⟨id₁, hid₁, hwants⟩
    · cases hpc.symm.trans hidle
    · obtain rfl := Option.some.inj (hid.symm.trans hid₁)
      rw [hpc] at hwants
      exact Option.some.inj hwants
  refine ⟨rfl, ?_⟩
  cases hholder : s.clients.shared.holder id with
  | none => rfl
  | some t' =>
      have hmine := hs.kept.holder_eq_some.mpr ⟨lock, hpc⟩
      have htheirs := hs.kept.holder_eq_some.mpr (hs.held t' id hholder)
      obtain rfl := Option.some.inj (hmine.symm.trans htheirs)
      exact absurd hholder (hnone id)

/-- What the clients see of a move is a move of theirs. -/
theorem Carried.visible (hs : s.Carried) (hheld : Held s.clients)
    (hnext : s.next h impl obs m = some s') :
    (∃ v, m.visible = some v ∧
      Pool.next (Fileloft.clients h impl obs) v s.clients = some s'.clients) ∨
    m.visible = none ∧ s'.clients = s.clients := by
  rcases next_cases hnext with ⟨v, rfl, -, -, hclients⟩ | ⟨t, id, w, rfl, -, -, -, hclients⟩ |
    ⟨t, env, q, id, k, id', lock, rfl, hrunning, henv, hpc, -, hclients⟩ |
    ⟨t, env, id, rfl, -, -, -, hclients⟩ | ⟨t, env, id, rfl, -, -, hclients⟩
  · exact .inl ⟨v, rfl, hclients⟩
  · exact .inr ⟨rfl, hclients⟩
  · have hid := asking_eq_some.mpr ⟨q, k, hrunning⟩
    have hfree := (hs.holder_eq_none hheld hid hpc).2
    refine .inl ⟨_, rfl, ?_⟩
    simp [Pool.next, hrunning, Fileloft.clients, act, henv, hfree, hclients]
  · exact .inl ⟨_, rfl, hclients⟩
  · exact .inl ⟨_, rfl, hclients⟩

/-- A client that is done in the locker, with nothing. -/
theorem Carried.quit (hs : s.Carried) {w : ProcessLocker.Move}
    {locker : ProcessLocker.LockerState ℕ}
    (hstep : s.locker.step t w = some locker) (hpc : locker.pc t = .idle)
    (hthreads : ∀ t', t' ≠ t → c'.threads t' = s.clients.threads t')
    (hmine : ∀ id, c'.shared.holder id ≠ some t)
    (hothers : ∀ t', t' ≠ t → ∀ id, c'.shared.holder id = some t' ↔
      s.clients.shared.holder id = some t') :
    (Server.mk c' locker).Carried where
  kept := hs.kept.step hstep
  held t' id hholder := by
    have ht : t' ≠ t := by
      rintro rfl
      exact hmine id hholder
    change ∃ lock, locker.pc t' = .holding id.val lock
    rw [ProcessLocker.LockerState.pc_step hstep ht]
    exact hs.held t' id ((hothers t' ht id).mp hholder)
  free t' hnone := by
    change locker.pc t' = .idle ∨ ∃ id, asking (c'.threads t') = some id ∧
      (locker.pc t').wants = some id.val
    by_cases ht : t' = t
    · rw [ht]
      exact .inl hpc
    · rw [ProcessLocker.LockerState.pc_step hstep ht, hthreads t' ht]
      exact hs.free t' fun id hholder => hnone id ((hothers t' ht id).mpr hholder)

theorem Carried.step (hs : s.Carried) (hheld : Held s.clients)
    (hnext : s.next h impl obs m = some s') :
    s'.Carried := by
  obtain ⟨c', locker'⟩ := s'
  rcases next_cases hnext with ⟨v, rfl, hv, rfl, hclients⟩ | ⟨t, id, w, rfl, hid, hw, hstep, rfl⟩ |
    ⟨t, env, q, id, k, id', lock, rfl, hrunning, -, hpc, rfl, rfl⟩ |
    ⟨t, env, id, rfl, hid, henv, hstep, hclients⟩ | ⟨t, env, id, rfl, hid, hstep, hclients⟩
  · obtain ⟨hholder, t, hmover, hothers⟩ := next_apart hv hclients
    refine ⟨hs.kept, fun t' id hid => hs.held t' id (hholder ▸ hid), fun t' hnone => ?_⟩
    have hold := hs.free t' (hholder ▸ hnone)
    by_cases ht : t' = t
    · subst ht
      rcases hold with hidle | ⟨id, hid, -⟩
      · exact .inl hidle
      · cases hmover.symm.trans hid
    · change s.locker.pc t' = .idle ∨ ∃ id, asking (c'.threads t') = some id ∧ _
      rw [hothers t' ht]
      exact hold
  · have hnone := not_holder_of_asking hheld hid
    refine ⟨hs.kept.step hstep, fun t' id' hholder => ?_, fun t' hfree => ?_⟩
    · have ht : t' ≠ t := by
        rintro rfl
        exact hnone id' hholder
      change ∃ lock, locker'.pc t' = .holding id'.val lock
      rw [ProcessLocker.LockerState.pc_step hstep ht]
      exact hs.held t' id' hholder
    · by_cases ht : t' = t
      · subst ht
        refine .inr ⟨id, hid, (ProcessLocker.LockerState.climbs_of_step hstep hw).wants ?_⟩
        rcases hs.free t' hnone with hidle | ⟨id₁, hid₁, hwants⟩
        · exact .inl hidle
        · obtain rfl := Option.some.inj (hid.symm.trans hid₁)
          exact .inr hwants
      · change locker'.pc t' = .idle ∨ ∃ id : UploadId, _ ∧ (locker'.pc t').wants = some id.val
        rw [ProcessLocker.LockerState.pc_step hstep ht]
        exact hs.free t' hfree
  · have hid := asking_eq_some.mpr ⟨q, k, hrunning⟩
    obtain ⟨rfl, -⟩ := hs.holder_eq_none hheld hid hpc
    refine ⟨hs.kept, fun t' id' hholder => ?_, fun t' hnone => ?_⟩
    · change Function.update s.clients.shared.holder id (some t) id' = some t' at hholder
      by_cases hid' : id' = id
      · subst hid'
        rw [Function.update_self] at hholder
        obtain rfl := Option.some.inj hholder
        exact ⟨lock, hpc⟩
      · rw [Function.update_of_ne hid'] at hholder
        exact hs.held t' id' hholder
    · have ht : t' ≠ t := by
        rintro rfl
        exact hnone id (Function.update_self ..)
      change s.locker.pc t' = .idle ∨ ∃ id', asking (Function.update s.clients.threads t _ t') =
        some id' ∧ _
      rw [Function.update_of_ne ht]
      refine hs.free t' fun id' hholder => hnone id' ?_
      change Function.update s.clients.shared.holder id (some t) id' = some t'
      have hid' : id' ≠ id := by
        rintro rfl
        have := (hs.holder_eq_none hheld hid hpc).2
        cases this.symm.trans hholder
      rw [Function.update_of_ne hid']
      exact hholder
  · obtain ⟨hholder, hothers⟩ := next_refused hid henv hclients
    refine hs.quit hstep (ProcessLocker.LockerState.pc_cancel hstep) hothers ?_ ?_
    · rw [hholder]
      exact not_holder_of_asking hheld hid
    · intro t' _ id'
      rw [hholder]
  · obtain ⟨hholder, hothers⟩ := next_released hid hclients
    refine hs.quit hstep (ProcessLocker.LockerState.pc_drop hstep) hothers ?_ ?_
    · intro id' hmine
      rw [hholder] at hmine
      by_cases hid' : id' = id
      · rw [hid', Function.update_self] at hmine
        cases hmine
      · rw [Function.update_of_ne hid'] at hmine
        exact hid' ((holder_of_releasing hheld hid id').mp hmine)
    · intro t' ht id'
      rw [hholder]
      by_cases hid' : id' = id
      · subst hid'
        rw [Function.update_self, (holder_of_releasing hheld hid id').mpr rfl]
        exact ⟨fun hnone => (by cases hnone), fun hmine => absurd (Option.some.inj hmine).symm ht⟩
      · rw [Function.update_of_ne hid']

theorem carried_of_serves (hs : Serves h impl obs P store notes s) :
    Reach (Fileloft.clients h impl obs) P (Fileloft.opened store notes) s.clients ∧ s.Carried := by
  induction hs with
  | opened => exact ⟨.refl, carried_opened⟩
  | @move s s' m hP hnext _ ih =>
      obtain ⟨hreach, hcarried⟩ := ih
      have hheld := held_of_reach hreach
      refine ⟨?_, hcarried.step hheld hnext⟩
      rcases hcarried.visible hheld hnext with ⟨v, hv, hclients⟩ | ⟨-, hclients⟩
      · exact .move v (hP v hv) hclients hreach
      · rw [hclients]
        exact hreach

/-! ## Coming to rest -/

/-- The server after a move by which no request comes in. -/
def Progresses (h : TusHandler) (impl : Interp StoreSig σ) (obs : Observer σ γ)
    (s' s : Server σ γ) : Prop := ∃ m : ServerMove, m.serves = true ∧ s.next h impl obs m = some s'

/-- The steps that the clients of `F` have left in the locker. -/
def left (F : Finset ℕ) (locker : ProcessLocker.LockerState ℕ) : ℕ := ∑ t ∈ F, (locker.pc t).left

theorem left_lt {F : Finset ℕ} {locker locker' : ProcessLocker.LockerState ℕ}
    {w : ProcessLocker.Move}
    (ht : t ∈ F) (hstep : locker.step t w = some locker') (hw : w.acquires id.val = true) :
    left F locker' < left F locker := by
  have hmine := (ProcessLocker.LockerState.climbs_of_step hstep hw).left_lt
  refine Finset.sum_lt_sum (fun t' _ => ?_) ⟨t, ht, hmine⟩
  by_cases ht' : t' = t
  · rw [ht']
    exact hmine.le
  · rw [ProcessLocker.LockerState.pc_step hstep ht']

theorem Serves.mono (hs : Serves h impl obs P store notes s) :
    Serves h impl obs (fun _ _ => True) store notes s := by
  induction hs with
  | opened => exact .opened
  | move m _ hnext _ ih => exact .move m (fun _ _ => trivial) hnext ih

theorem not_start {v : ClientMove} (hm : m.serves = true) (hv : m.visible = some v) (t : ℕ)
    (q : TusRequest) : v ≠ .start t q := by
  rintro rfl
  cases m with
  | client v =>
      cases hv
      cases hm
  | _ => cases hv

/-- The clients take finitely many moves, and between two of them the locker
takes finitely many. -/
theorem acc_of_serves (hs : Serves h impl obs (fun _ _ => True) store notes s)
    (hc : Acc (Pool.Progresses (Fileloft.clients h impl obs)) s.clients) :
    Acc (Progresses h impl obs) s := by
  generalize hclients : s.clients = c at hc
  induction hc generalizing s with
  | intro c _ ih =>
      obtain ⟨F, hF⟩ := only_of_reach (fun _ => rfl) (carried_of_serves hs).1
      generalize hn : left F s.locker = n
      induction n using Nat.strong_induction_on generalizing s with
      | _ n ihn =>
          obtain ⟨hreach, hcarried⟩ := carried_of_serves hs
          refine ⟨_, ?_⟩
          rintro s' ⟨m, hm, hnext⟩
          have hs' := hs.move m (fun _ _ => trivial) hnext
          rcases hcarried.visible (held_of_reach hreach) hnext with ⟨v, hv, hmove⟩ | ⟨hv, hsame⟩
          · exact ih s'.clients ⟨v, not_start hm hv, hclients ▸ hmove⟩ hs' rfl
          · rcases next_cases hnext with ⟨v, rfl, -⟩ | ⟨t, id, w, rfl, hid, hw, hstep, -⟩ |
              ⟨t, env, q, id, k, id', lock, rfl, -⟩ | ⟨t, env, id, rfl, -⟩ | ⟨t, env, id, rfl, -⟩
            · cases hv
            · obtain ⟨q, k, hrunning⟩ := asking_eq_some.mp hid
              have hleft := left_lt (hF t q _ hrunning) hstep hw
              exact ihn _ (hn ▸ hleft) hs' (hsame.trans hclients) (hsame ▸ hF) rfl
            · cases hv
            · cases hv
            · cases hv

/-- Some client goes on, and not by giving up. -/
def GoesOn (h : TusHandler) (impl : Interp StoreSig σ) (obs : Observer σ γ) (s : Server σ γ) :
    Prop :=
  ∃ m : ServerMove, m.patient = true ∧ (s.next h impl obs m).isSome

theorem goesOn_client (hv : s.atLocker v = false) (hpatient : (ServerMove.client v).patient = true)
    (hsome : (Pool.next (Fileloft.clients h impl obs) v s.clients).isSome) : s.GoesOn h impl obs :=
  ⟨.client v, hpatient, by simp [next, hv, see, hsome]⟩

theorem goesOn_locker {w : ProcessLocker.Move} (hid : asking (s.clients.threads t) = some id)
    (hw : w.acquires id.val = true) (hsome : (s.locker.step t w).isSome) : s.GoesOn h impl obs :=
  ⟨.locker t w, rfl, by simp [next, hid, hw, hsome]⟩

theorem goesOn_granted (hid : asking (s.clients.threads t) = some id) {id' : Str} {lock : ℕ}
    (hpc : s.locker.pc t = .holding id' lock) : s.GoesOn h impl obs := by
  obtain ⟨q, k, hrunning⟩ := asking_eq_some.mp hid
  exact ⟨.granted t (.permissive .b), rfl, by simp [next, grant, hrunning, hpc, Env.permissive]⟩

theorem Carried.asking_of_pc (hs : s.Carried) (hpc : s.locker.pc t ≠ .idle)
    (hnot : ∀ id lock, s.locker.pc t = .holding id.val lock → s.clients.shared.holder id ≠ some t) :
    ∃ id, asking (s.clients.threads t) = some id := by
  have hnone (id : UploadId) : s.clients.shared.holder id ≠ some t := by
    intro hholder
    obtain ⟨lock, hholding⟩ := hs.held t id hholder
    exact hnot id lock hholding hholder
  rcases hs.free t hnone with hidle | ⟨id, hid, -⟩
  · exact absurd hidle hpc
  · exact ⟨id, hid⟩

/-- Nobody has the lock that is asked for. Either it can be taken, or somebody
else is in the locker and can go on. -/
theorem Carried.goesOn_acquire (hs : s.Carried) (hheld : Held s.clients)
    (hid : asking (s.clients.threads t) = some id) (hnone : s.clients.shared.holder id = none) :
    s.GoesOn h impl obs := by
  rcases Option.eq_none_or_eq_some (s.locker.holder id.val) with hfree | ⟨q, hholder⟩
  · have hp : s.locker.pc t = .idle ∨ (s.locker.pc t).wants = some id.val := by
      rcases hs.free t (not_holder_of_asking hheld hid) with hidle | ⟨id', hid', hwants⟩
      · exact .inl hidle
      · obtain rfl := Option.some.inj (hid.symm.trans hid')
        exact .inr hwants
    obtain ⟨q, w, ⟨rfl, hw⟩ | ⟨hmutex, hw⟩, hsome⟩ := hs.kept.goes_on hp hfree
    · exact goesOn_locker hid hw hsome
    · have hinside := (hs.kept.owner q).mpr hmutex
      have hq : ∃ id', asking (s.clients.threads q) = some id' := by
        apply hs.asking_of_pc
        · intro hidle
          rw [hidle] at hinside
          cases hinside
        · intro id' lock hpc
          rw [hpc] at hinside
          cases hinside
      obtain ⟨id', hq⟩ := hq
      exact goesOn_locker hq (hw id'.val) hsome
  · -- the lock is taken, and its client has not been told yet
    obtain ⟨lock, hpc⟩ := hs.kept.holder_eq_some.mp hholder
    have hq : ∃ id', asking (s.clients.threads q) = some id' := by
      apply hs.asking_of_pc
      · rw [hpc]
        exact fun hidle => by cases hidle
      · intro id' lock' hpc'
        rw [hpc] at hpc'
        have hval : id.val = id'.val := (ProcessLocker.Pc.holding.inj hpc').1
        rw [← UploadId.ext hval, hnone]
        exact (Option.some_ne_none q).symm
    obtain ⟨id', hq⟩ := hq
    exact goesOn_granted hq hpc

theorem Carried.goesOn_release (hs : s.Carried) (hheld : Held s.clients)
    (hid : releasing (s.clients.threads t) = some id) : s.GoesOn h impl obs := by
  obtain ⟨lock, hpc⟩ := hs.held t id ((holder_of_releasing hheld hid id).mpr rfl)
  obtain ⟨q, k, hrunning⟩ := releasing_eq_some.mp hid
  refine ⟨.released t (.permissive .b), rfl, ?_⟩
  simp [next, releasing, ProcessLocker.LockerState.step, hpc, see, Pool.next, hrunning,
    Fileloft.clients, act]

/-- A client that could go on without the locker goes on, or one does that is
in the locker. -/
theorem Carried.goesOn (hs : s.Carried) (hheld : Held s.clients)
    (hready : Ready (Fileloft.clients h impl obs) s.clients t) : s.GoesOn h impl obs := by
  rcases hready with hstep | hfinish
  · have hsome := hstep (.permissive .b)
    cases hth : s.clients.threads t with
    | running q p =>
        cases p with
        | op o k =>
            cases o with
            | acquire id =>
                have hid := asking_eq_some.mpr ⟨q, k, hth⟩
                apply hs.goesOn_acquire hheld hid
                by_contra hnone
                simp [Pool.next, hth, Fileloft.clients, act, Env.permissive, hnone] at hsome
            | release id => exact hs.goesOn_release hheld (releasing_eq_some.mpr ⟨q, k, hth⟩)
            | _ => exact goesOn_client (by simp [atLocker, hth, asking, releasing]) rfl hsome
        | _ => simp [Pool.next, hth] at hsome
    | _ => simp [Pool.next, hth] at hsome
  · exact goesOn_client rfl rfl hfinish

/-- At rest nobody is in the locker. -/
theorem Carried.idle_of_rest (hs : s.Carried)
    (hrest : ∀ t q p, s.clients.threads t ≠ .running q p)
    (hfreed : ∀ id, s.clients.shared.holder id = none) (t : ℕ) : s.locker.pc t = .idle := by
  by_contra hpc
  have hid : ∃ id, asking (s.clients.threads t) = some id := by
    refine hs.asking_of_pc hpc fun id _ _ => ?_
    rw [hfreed id]
    exact (Option.some_ne_none t).symm
  obtain ⟨id, hid⟩ := hid
  obtain ⟨q, k, hrunning⟩ := asking_eq_some.mp hid
  exact hrest t q _ hrunning

theorem serves_of_afterMoves {ms : List ServerMove}
    (hs : Serves h impl obs (fun _ _ => True) store notes s)
    (hms : afterMoves (next h impl obs) ms s = some s') :
    Serves h impl obs (fun _ _ => True) store notes s' := by
  induction ms generalizing s with
  | nil => exact Option.some.inj hms ▸ hs
  | cons m ms ih =>
      obtain ⟨s₁, hnext, hrest⟩ := Option.bind_eq_some_iff.mp hms
      exact ih (hs.move m (fun _ _ => trivial) hnext) hrest

namespace Waiting

def acquire (t : ℕ) : List ServerMove :=
    [.acquire "a".toList, .lock, .entry, .leave].map (.locker t)

/-- Both clients have the mutex of the upload, and one of them has locked it. -/
def run : List ServerMove :=
  .client (.start 0 Fileloft.Waiting.delete) :: .client (.start 1 Fileloft.Waiting.delete) ::
    acquire 0 ++ acquire 1 ++ [.locker 0 .own, .granted 0 (.permissive .b)]

theorem waits : ∃ s : Server Unit Unit,
    afterMoves (next Fileloft.Waiting.handler vacant .blind) run (opened () ()) = some s ∧
      s.locker.pc 1 = .waiting "a".toList 0 ∧
      s.next Fileloft.Waiting.handler vacant .blind (.locker 1 .own) = none :=
  ⟨_, rfl, rfl, rfl⟩

end Waiting

end Server

open Server

/-- The requests at the server come to an end in every order of steps, some
of them can always go on without one that gives up, and then nobody is in the
locker or has a lock of it. -/
theorem cloud_requests_settle {h : TusHandler} {σ γ : Type} {impl : Interp StoreSig σ}
    {obs : Observer σ γ} {P : Clients σ γ → ClientMove → Prop} {store : σ} {notes : γ}
    {s : Server σ γ} (hs : Serves h impl obs P store notes s) :
    Acc (Progresses h impl obs) s ∧
      ((∃ t q p, s.clients.threads t = .running q p) → s.GoesOn h impl obs) ∧
      ((∀ t q p, s.clients.threads t ≠ .running q p) →
        s.locker.mutex = none ∧ ∀ lock, s.locker.guard lock = none) := by
  obtain ⟨hreach, hcarried⟩ := carried_of_serves hs
  have hsettles : Settles (clients h impl obs) Shared.holder s.clients :=
    guards_clients.settles (fun _ => rfl) (fun _ => rfl) hreach
  refine ⟨acc_of_serves hs.mono hsettles.finite, ?_, fun hrest => ?_⟩
  · rintro ⟨t, q, p, hrunning⟩
    obtain ⟨t', hready⟩ := hsettles.unstuck t q p hrunning
    exact hcarried.goesOn (held_of_reach hreach) hready
  · have hidle := hcarried.idle_of_rest hrest (hsettles.freed hrest)
    constructor
    · cases hmutex : s.locker.mutex with
      | none => rfl
      | some t =>
          have hinside := (hcarried.kept.owner t).mpr hmutex
          rw [hidle t] at hinside
          cases hinside
    · intro lock
      cases hguard : s.locker.guard lock with
      | none => rfl
      | some t =>
          have hguarded := (hcarried.kept.guard lock t).mp hguard
          rw [hidle t] at hguarded
          cases hguarded

theorem cloud_requests_settle_waiting : ∃ s : Server Unit Unit,
    s.next Fileloft.Waiting.handler vacant .blind (.locker 1 .own) = none ∧
      Acc (Progresses Fileloft.Waiting.handler vacant .blind) s ∧
      ((∃ t q p, s.clients.threads t = .running q p) →
        s.GoesOn Fileloft.Waiting.handler vacant .blind) ∧
      ((∀ t q p, s.clients.threads t ≠ .running q p) →
        s.locker.mutex = none ∧ ∀ lock, s.locker.guard lock = none) := by
  obtain ⟨s, hrun, -, hwaits⟩ := Server.Waiting.waits
  exact ⟨s, hwaits, cloud_requests_settle (serves_of_afterMoves .opened hrun)⟩

end Fileloft
