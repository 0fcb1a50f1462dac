import Fileloft.Effect.Apart
import Fileloft.Server.Calls
import Fileloft.Server.Clients

/-!
# Clients of different uploads

Clients that work on different uploads, and join none, do not notice each
other: not in what they are answered, and not in when they have to wait.
-/

namespace Fileloft

open Handler Pool

/-- An operation on the upload `i` that joins no others into it. -/
def On (i : UploadId) : HandlerOp → Prop
  | .store o => o.target = i ∧ ∀ j partials, o ≠ .concatenate j partials
  | .acquire j | .release j => j = i
  | _ => True

theorem on_of_unshared {i : UploadId} (o : HandlerOp) (ho : Unshared o) : On i o := by
  cases o with
  | store _ | acquire _ | release _ | emit _ => exact ho.elim
  | _ => trivial

section Uses

variable {α : Type} {U : HandlerOp → Prop} {G : (o : HandlerSig.Op) → HandlerSig.Ans o → Prop}
  {h : TusHandler} {q : TusRequest} {i : UploadId}

theorem uses_withLock {id : UploadId} {p : Handler α} (hacquire : U (.acquire id))
    (hrelease : U (.release id)) (hp : p.Uses U G) : (withLock h id p).Uses U G := by
  unfold withLock
  split
  · refine ⟨hacquire, fun r _ => (uses_check r).bind fun _ => hp.attempt.bind fun result => ?_⟩
    exact ⟨hrelease, fun _ _ => Prog.uses_ofExcept result⟩
  · exact hp

theorem uses_check_bind {β : Type} {r : Except TusError α} {f : α → Handler β}
    (hf : ∀ a, r = .ok a → (f a).Uses U G) : ((check r).bind f).Uses U G := by
  cases r with
  | ok a => exact hf a rfl
  | error e => trivial

theorem on_reads {o : StoreOp} (ho : Reads i o) : On i (.store o) := by
  cases o with
  | getUpload _ | getInfo _ | readContent _ => exact ⟨ho, fun _ _ heq => by cases heq⟩
  | _ => cases ho

theorem on_deletes {o : StoreOp} (ho : Deletes i o) : On i (.store o) := by
  cases o with
  | getUpload _ | getInfo _ | delete _ => exact ⟨ho, fun _ _ heq => by cases heq⟩
  | _ => cases ho

theorem on_appends {o : StoreOp} (ho : Appends i o) : On i (.store o) := by
  cases o with
  | getUpload _ | getInfo _ | writeChunk _ _ _ | declareLength _ _ | finalize _ =>
      exact ⟨ho, fun _ _ heq => by cases heq⟩
  | _ => cases ho

theorem Head.uses_on (hid : ∀ j, requestId q = .ok j → j = i) :
    (Head.handle h q).Uses (On i) G := by
  unfold Head.handle
  refine (uses_check _).bind fun _ => uses_check_bind fun id hok => ?_
  obtain rfl := hid id hok
  refine (uses_store (on_reads (o := .getUpload id) rfl)).bind fun _ => ?_
  refine (uses_store (on_reads (o := .getInfo id) rfl)).bind fun info => ?_
  exact (uses_checkExpiry on_of_unshared _).bind fun _ => trivial

theorem Get.uses_on (hid : ∀ j, requestId q = .ok j → j = i) : (Get.handle h q).Uses (On i) G := by
  unfold Get.handle
  refine (uses_ensure _ _).bind fun _ => uses_check_bind fun id hok => ?_
  obtain rfl := hid id hok
  refine uses_withLock rfl rfl ?_
  refine (uses_store (on_reads (o := .getUpload id) rfl)).bind fun _ => ?_
  refine (uses_store (on_reads (o := .getInfo id) rfl)).bind fun info => ?_
  refine (uses_checkExpiry on_of_unshared _).bind fun _ => (uses_ensure _ _).bind fun _ => ?_
  exact (uses_store (on_reads (o := .readContent id) rfl)).bind fun _ => trivial

theorem Delete.uses_on (hid : ∀ j, requestId q = .ok j → j = i) :
    (Delete.handle h q).Uses (On i) G := by
  unfold Delete.handle
  refine (uses_check _).bind fun _ => (uses_ensure _ _).bind fun _ => uses_check_bind
    fun id hok => ?_
  obtain rfl := hid id hok
  have hlocked : (withLock h id do
      getUpload id
      delete id
      emit h (.uploadTerminated id)
      return h.response 204 [] []).Uses (On id) G := by
    refine uses_withLock rfl rfl ?_
    refine (uses_store (on_deletes (o := .getUpload id) rfl)).bind fun _ => ?_
    refine (uses_store (on_deletes (o := .delete id) rfl)).bind fun _ => ?_
    exact (uses_emit trivial).bind fun _ => trivial
  split
  · refine (uses_store (on_deletes (o := .getUpload id) rfl)).bind fun _ => ?_
    refine (uses_store (on_deletes (o := .getInfo id) rfl)).bind fun info => ?_
    exact (uses_preTerminate on_of_unshared info).bind fun _ => hlocked
  · exact hlocked

theorem Patch.uses_on (hid : ∀ j, requestId q = .ok j → j = i) :
    (Patch.handle h q).Uses (On i) G := by
  unfold Patch.handle
  refine uses_check_bind fun ⟨offset, id⟩ hparse => ?_
  obtain rfl := hid id (Patch.requestId_of_parse hparse)
  refine uses_withLock rfl rfl ?_
  exact Patch.uses_locked on_of_unshared (fun _ => on_appends) fun _ => ⟨trivial, trivial⟩

/-- A request that is not a creation keeps to the upload it names. -/
theorem TusHandler.uses_on (hpost : q.method ≠ .post) (hid : ∀ j, requestId q = .ok j → j = i) :
    (h.handle q).Uses (On i) G := by
  have hdispatch : (h.dispatch q).Uses (On i) G := by
    unfold TusHandler.dispatch
    cases hmethod : q.method with
    | options => exact (uses_check _).bind fun _ => trivial
    | head => exact Head.uses_on hid
    | get => exact Get.uses_on hid
    | post => exact absurd hmethod hpost
    | patch => exact Patch.uses_on hid
    | delete => exact Delete.uses_on hid
    | other _ => trivial
  refine hdispatch.attempt.bind fun r => ?_
  rcases r with (e | _) | resp <;> trivial

end Uses

/-- A store in which a call on an accepted upload sees and changes the part
of this upload only, unless it joins others. -/
structure Local {σ τ : Type} (impl : Interp StoreSig σ) (inv : σ → Prop) (accepts : UploadId → Prop)
    (part : UploadId → σ → τ) : Prop where
  keeps : ∀ o s, inv s → accepts o.target → inv (impl o s).2
  own : ∀ o s u, inv s → inv u → accepts o.target → (∀ j partials, o ≠ .concatenate j partials) →
    part o.target u = part o.target s →
      (impl o u).1 = (impl o s).1 ∧ part o.target (impl o u).2 = part o.target (impl o s).2
  other : ∀ o s i, inv s → accepts o.target → accepts i → i ≠ o.target →
    part i (impl o s).2 = part i s

section Apart

variable {σ τ γ : Type} {impl : Interp StoreSig σ} {inv : σ → Prop} {accepts : UploadId → Prop}
  {part : UploadId → σ → τ} {h : TusHandler} {obs : Observer σ γ} {on : ℕ → UploadId}

/-- What a client of the upload `i` can see. -/
def seen (part : UploadId → σ → τ) (i : UploadId) (s : Shared σ γ) : τ × Option ℕ :=
  (part i s.store, s.holder i)

theorem seen_granted {i j : UploadId} {t : ℕ} {s : Shared σ γ} (hne : i ≠ j) :
    seen part i (s.granted obs t j) = seen part i s := by
  simp only [seen, Shared.granted, Function.update_of_ne hne]

theorem seen_released {i j : UploadId} {s : Shared σ γ} (hne : i ≠ j) :
    seen part i (s.released j) = seen part i s := by
  simp only [seen, Shared.released, Function.update_of_ne hne]

theorem apart_clients (hlocal : Local impl inv accepts part) (hon : ∀ t, accepts (on t)) :
    Apart (clients h impl obs) (fun s => inv s.store) (seen part) on fun t => On (on t) where
  enter _ _ _ := ⟨id, fun _ => rfl⟩
  leave _ _ _ _ := ⟨id, fun _ => rfl⟩
  keeps env t o s r s' hinv ho hact := by
    cases o with
    | store o =>
        obtain ⟨-, rfl⟩ := Prod.mk.inj (Option.some.inj hact)
        exact hlocal.keeps o s.store hinv (ho.1 ▸ hon t)
    | acquire j =>
        obtain ⟨-, ⟨-, -, rfl⟩ | ⟨e, -, rfl⟩⟩ := act_acquire impl hact
        · exact hinv
        · exact hinv
    | _ =>
        obtain ⟨-, rfl⟩ := Prod.mk.inj (Option.some.inj hact)
        exact hinv
  own env t o s u r s' hs hu ho hseen hact := by
    obtain ⟨hpart, hholder⟩ := Prod.mk.inj hseen
    cases o with
    | store o =>
        obtain ⟨rfl, rfl⟩ := Prod.mk.inj (Option.some.inj hact)
        obtain ⟨htarget, hjoins⟩ := ho
        rw [← htarget] at hpart
        obtain ⟨hanswer, hnext⟩ := hlocal.own o s.store u.store hs hu (htarget ▸ hon t) hjoins hpart
        refine ⟨u.called impl obs t o, congrArg (fun r => some (r, u.called impl obs t o))
          hanswer, ?_⟩
        rw [htarget] at hnext
        exact Prod.ext hnext hholder
    | acquire j =>
        obtain rfl : j = on t := ho
        change ∃ u', act impl obs env t (.acquire (on t)) u = some (r, u') ∧ _
        obtain ⟨henv, ⟨rfl, hfree, rfl⟩ | ⟨e, rfl, rfl⟩⟩ := act_acquire impl hact
        · simp only [act, henv, if_pos (hholder.trans hfree)]
          refine ⟨_, rfl, Prod.ext hpart ?_⟩
          simp only [seen, Shared.granted, Function.update_self]
        · simp only [act, henv]
          exact ⟨_, rfl, Prod.ext hpart hholder⟩
    | release j =>
        obtain rfl : j = on t := ho
        obtain ⟨rfl, rfl⟩ := Prod.mk.inj (Option.some.inj hact)
        refine ⟨_, rfl, Prod.ext hpart ?_⟩
        simp only [seen, Shared.released, Function.update_self]
    | _ =>
        obtain ⟨rfl, rfl⟩ := Prod.mk.inj (Option.some.inj hact)
        exact ⟨_, rfl, Prod.ext hpart hholder⟩
  other env t t' o s r s' hs ho hne hact := by
    cases o with
    | store o =>
        obtain ⟨-, rfl⟩ := Prod.mk.inj (Option.some.inj hact)
        have htarget : o.target = on t := ho.1
        have hpart := hlocal.other o s.store (on t') hs (htarget ▸ hon t) (hon t') (htarget ▸ hne)
        exact Prod.ext hpart rfl
    | acquire j =>
        obtain rfl : j = on t := ho
        obtain ⟨-, ⟨-, -, rfl⟩ | ⟨e, -, rfl⟩⟩ := act_acquire impl hact
        · exact seen_granted hne
        · rfl
    | release j =>
        obtain rfl : j = on t := ho
        obtain ⟨-, rfl⟩ := Prod.mk.inj (Option.some.inj hact)
        exact seen_released hne
    | _ =>
        obtain ⟨-, rfl⟩ := Prod.mk.inj (Option.some.inj hact)
        rfl

/-- Each client works on one upload. A creation settles on its own id and
joins no others. -/
structure Minds (on : ℕ → UploadId) (c : Clients σ γ) (m : ClientMove) : Prop where
  names : ∀ t q j, m = .start t q → q.method ≠ .post → requestId q = .ok j → j = on t
  creates : ∀ t env q o k, m = .step t env → c.threads t = .running q (.op o k) → q.method = .post →
    On (on t) o

theorem minds_congr {c : Clients σ γ} {d : Clients τ γ} {m : ClientMove}
    (hthreads : d.threads = c.threads) (hm : Minds on c m) : Minds on d m where
  names := hm.names
  creates t env q o k hmove hrunning :=
    hm.creates t env q o k hmove ((congrFun hthreads t).symm.trans hrunning)

variable {ms : List ClientMove} {c₀ c : Clients σ γ}

theorem minding_of_minds (hidle : ∀ t, c₀.threads t = .idle)
    (hc : Reach (clients h impl obs) (Minds on) c₀ c) {m : ClientMove} (hm : Minds on c m) :
    Minding (fun t => On (on t)) c m := by
  intro t env q o k hmove hrunning
  by_cases hpost : q.method = .post
  · exact hm.creates t env q o k hmove hrunning hpost
  · refine (hc.uses (U := fun t q o => q.method ≠ .post → On (on t) o) ?_ hidle hrunning).1 hpost
    intro c t q hstart
    by_cases hpost : q.method = .post
    · exact Prog.uses_of_forall _ fun _ hother => absurd hpost hother
    · apply (TusHandler.uses_on hpost fun j hj => hstart.names t q j rfl hpost hj).mono
      exact fun _ ho _ => ho

/-- Taking the other clients out of a run leaves a run in which the clients
of an upload are where they were. -/
theorem project_clients (hlocal : Local impl inv accepts part) (hon : ∀ t, accepts (on t))
    (hinv : inv c₀.shared.store) (hidle : ∀ t, c₀.threads t = .idle)
    (hc : Run (clients h impl obs) (Minds on) c₀ ms c) (t' : ℕ) :
    ∃ d, Run (clients h impl obs) (fun _ _ => True) c₀ (ms.filter fun m => on m.thread = on t') d ∧
      (∀ t, on t = on t' → d.threads t = c.threads t) ∧
      part (on t') d.shared.store = part (on t') c.shared.store ∧
      d.shared.holder (on t') = c.shared.holder (on t') := by
  obtain ⟨d, hrun, hthreads, hpart⟩ := (@apart_clients _ _ _ _ _ _ _ h obs _ hlocal hon).project
    (fun _ _ hreach hm => minding_of_minds hidle hreach hm) hinv hc (rfl : on t' = on t')
  obtain ⟨hstore, hholder⟩ := Prod.mk.inj hpart
  exact ⟨d, hrun, hthreads, hstore, hholder⟩

end Apart

end Fileloft
