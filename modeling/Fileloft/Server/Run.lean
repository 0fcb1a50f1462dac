import Fileloft.Handler.Post

/-!
# Serialized requests

One request at a time, over any store. The environment of a request fixes
the answers that come from outside: the clock, the new UUID, the locker and
the callbacks. A run is a sequence of requests, each with its own
environment, so no relation between the answers is assumed.
-/

namespace Fileloft

/-- The outside answers during one request. -/
structure Env where
  clock : DateTime
  uuid : Uuid
  acquire : UploadId → Except TusError Unit
  preCreate : UploadInfo → Except TusError UploadInfoChanges
  preFinish : UploadInfo → Except TusError Unit
  preTerminate : UploadInfo → Except TusError Unit

/-- What an observer sees besides the responses. -/
inductive Obs where
  | emitted (event : HookEvent)
  | preFinish (info : UploadInfo) (answer : Except TusError Unit)
  | preTerminate (info : UploadInfo) (answer : Except TusError Unit)
  | finalized (id : UploadId) (answer : Except TusError Unit)

/-- The store and the log of observations. -/
structure World (σ : Type) where
  store : σ
  log : List Obs

namespace World

variable {σ : Type}

def note (w : World σ) (o : Obs) : World σ := { w with log := w.log ++ [o] }

/-- Log the answer of a finalize call. -/
def noteStore (w : World σ) : (o : StoreOp) → Except TusError o.Val → World σ
  | .finalize id, answer => w.note (.finalized id answer)
  | _, _ => w

@[simp] theorem note_store (w : World σ) (o : Obs) : (w.note o).store = w.store := rfl

@[simp] theorem noteStore_store (w : World σ) (o : StoreOp) (a : Except TusError o.Val) :
    (w.noteStore o a).store = w.store := by
  cases o <;> rfl

/-- The observations of `w'` that `w` did not have yet. -/
def news (w w' : World σ) : List Obs := w'.log.drop w.log.length

end World

variable {σ : Type}

/-- A handler operation against a store interpretation and an environment. -/
def handlerInterp (impl : Interp StoreSig σ) (env : Env) : Interp HandlerSig (World σ)
  | .store o, w =>
    ((impl o w.store).1, ({ w with store := (impl o w.store).2 } : World σ).noteStore o
      (impl o w.store).1)
  | .acquire id, w => (env.acquire id, w)
  | .release _, w => ((), w)
  | .newUuid, w => (env.uuid, w)
  | .now, w => (env.clock, w)
  | .preCreate info, w => (env.preCreate info, w)
  | .preFinish info, w => (env.preFinish info, w.note (.preFinish info (env.preFinish info)))
  | .preTerminate info, w =>
    (env.preTerminate info, w.note (.preTerminate info (env.preTerminate info)))
  | .emit event, w => ((), w.note (.emitted event))

/-- Serve one request. There is no response when the handler panics. -/
def serve (h : TusHandler) (impl : Interp StoreSig σ) (env : Env) (req : TusRequest)
    (w : World σ) : Option TusResponse × World σ :=
  let r := (h.handle req).run (handlerInterp impl env) w
  (r.1.toOption, r.2)

/-- A store as the handler meets it: its states, the empty one, and its
interpretation for each way the outside world can resolve a request. -/
structure Backend where
  State : Type
  empty : State
  Choice : Type
  impl : Choice → Interp StoreSig State

/-- A request together with everything the outside contributes to it. -/
structure Exchange (B : Backend) where
  req : TusRequest
  env : Env
  choice : B.Choice

namespace Backend

variable (B : Backend) (h : TusHandler)

def initial : World B.State := ⟨B.empty, []⟩

/-- The response to one exchange and the world after it. -/
def serve (x : Exchange B) (w : World B.State) : Option TusResponse × World B.State :=
  Fileloft.serve h (B.impl x.choice) x.env x.req w

/-- The world after a list of exchanges. -/
def serveAll (xs : List (Exchange B)) (w : World B.State) : World B.State :=
  xs.foldl (fun w x => (B.serve h x w).2) w

/-- The worlds that serialized requests reach from the empty store. -/
inductive Reachable : World B.State → Prop where
  | initial : Reachable B.initial
  | step {w : World B.State} (x : Exchange B) : Reachable w → Reachable (B.serve h x w).2

/-- Worlds that requests reach from `w`, each allowed where it is served. -/
inductive Follows (P : World B.State → Exchange B → Prop) (w : World B.State) :
    World B.State → Prop where
  | refl : Follows P w w
  | step {w' : World B.State} (x : Exchange B) (hx : P w' x) :
      Follows P w w' → Follows P w (B.serve h x w').2

variable {B h}

theorem Follows.invariant {P : World B.State → Exchange B → Prop} {I : World B.State → Prop}
    {w w' : World B.State} (hrun : B.Follows h P w w') (hw : I w)
    (hstep : ∀ w x, P w x → I w → I (B.serve h x w).2) : I w' := by
  induction hrun with
  | refl => exact hw
  | step x hx _ ih => exact hstep _ x hx ih

theorem Follows.reachable {P : World B.State → Exchange B → Prop} {w w' : World B.State}
    (hrun : B.Follows h P w w') (hw : B.Reachable h w) : B.Reachable h w' := by
  induction hrun with
  | refl => exact hw
  | step x _ _ ih => exact .step x ih

theorem Follows.trans {P : World B.State → Exchange B → Prop} {w w' w'' : World B.State}
    (hrun : B.Follows h P w w') (hrest : B.Follows h P w' w'') : B.Follows h P w w'' := by
  induction hrest with
  | refl => exact hrun
  | step x hx _ ih => exact .step x hx ih

variable (B h) in
/-- Every exchange of the list passes a check where it is served. -/
def passes (check : World B.State → Exchange B → Bool) : List (Exchange B) → World B.State → Bool
  | [], _ => true
  | x :: xs, w => check w x && passes check xs (B.serve h x w).2

theorem Follows.serveAll {P : World B.State → Exchange B → Prop}
    {check : World B.State → Exchange B → Bool} (hP : ∀ w x, check w x = true → P w x)
    {xs : List (Exchange B)} {w : World B.State} (hxs : B.passes h check xs w = true) :
    B.Follows h P w (B.serveAll h xs w) := by
  induction xs generalizing w with
  | nil => exact .refl
  | cons x xs ih =>
      rw [passes, Bool.and_eq_true] at hxs
      exact (Follows.step x (hP w x hxs.1) .refl).trans (ih hxs.2)

/-- What every exchange preserves holds in every reachable world. -/
theorem Reachable.invariant {I : World B.State → Prop} {w : World B.State}
    (hw : B.Reachable h w) (h0 : I B.initial)
    (hstep : ∀ w x, I w → I (B.serve h x w).2) : I w := by
  induction hw with
  | initial => exact h0
  | step x _ ih => exact hstep _ x ih

/-- What every store call preserves, a request preserves. -/
theorem serve_preserves {I : B.State → Prop} {x : Exchange B} {w : World B.State}
    (hI : ∀ c o s, I s → I (B.impl c o s).2) (hw : I w.store) : I (B.serve h x w).2.store := by
  refine Prog.run_preserves (I := fun w : World B.State => I w.store) (fun o w hw => ?_)
    (h.handle x.req) hw
  cases o with
  | store o =>
      simp only [handlerInterp, World.noteStore_store]
      exact hI x.choice o w.store hw
  | acquire id => exact hw
  | release id => exact hw
  | newUuid => exact hw
  | now => exact hw
  | preCreate info => exact hw
  | preFinish info => exact hw
  | preTerminate info => exact hw
  | emit event => exact hw

/-- What every store call preserves holds in every reachable store. -/
theorem Reachable.store_invariant {I : B.State → Prop} {w : World B.State}
    (hw : B.Reachable h w) (h0 : I B.empty) (hI : ∀ c o s, I s → I (B.impl c o s).2) :
    I w.store :=
  hw.invariant (I := fun w => I w.store) h0 fun _ _ => serve_preserves hI

theorem Reachable.serveAll {w : World B.State} (hw : B.Reachable h w) (xs : List (Exchange B)) :
    B.Reachable h (B.serveAll h xs w) := by
  induction xs generalizing w with
  | nil => exact hw
  | cons x xs ih => exact ih (.step x hw)

end Backend

end Fileloft
