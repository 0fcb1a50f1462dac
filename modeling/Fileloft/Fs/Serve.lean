import Fileloft.Server.Calls
import Fileloft.Fs.Calls

/-!
# Requests over the file store

A request served over a disk that keeps the slots of a store is answered as
it is over the slots, in whatever order directories are listed.
-/

namespace Fileloft

namespace Slots

/-- The slots as a store of their own. -/
abbrev backend : Backend where
  State := Slots
  empty := empty
  Choice := Unit
  impl := fun _ => interp

theorem pureReads : PureReads interp where
  getUpload _ _ := rfl
  getInfo _ _ := rfl

/-- Creating or finding an upload needs an accepted id. -/
theorem establishes_interp (o : StoreOp) (t : Slots) :
    Establishes UploadId.Valid (.store o) (interp o t).1 := by
  cases o with
  | createUpload info =>
      intro hok
      simp only [interp, createUpload] at hok
      split at hok
      · cases hok
      · next hvalid => exact hvalid
  | getUpload id =>
      intro hok
      simp only [interp, getUpload] at hok
      split at hok
      · cases hok
      · next hvalid => exact hvalid
  | _ => trivial

theorem valid_of_establishes {env : Env} (o : HandlerOp) (v : World Slots) :
    Establishes UploadId.Valid o (handlerInterp interp env o v).1 := by
  cases o with
  | store o => exact establishes_interp o v.store
  | _ => trivial

end Slots

namespace FileStore

variable {s : FileStore} {h : TusHandler} {order : Listing} {env : Env}

/-- The disk of one world keeps the slots of the other, and both logged the
same. -/
structure Tracks (s : FileStore) (w : World Disk) (v : World Slots) : Prop where
  store : s.Keeps w.store v.store
  log : w.log = v.log

variable {w : World Disk} {v : World Slots}

theorem Tracks.note (hw : s.Tracks w v) (o : Obs) : s.Tracks (w.note o) (v.note o) where
  store := hw.store
  log := by rw [World.note, World.note, hw.log]

theorem Tracks.handlerInterp (hw : s.Tracks w v) (o : HandlerOp)
    (ho : OnStore (fun o => True ∧ ∀ id ∈ o.handle, id.Valid) o) :
    (handlerInterp (s.interp order) env o w).1 = (handlerInterp Slots.interp env o v).1 ∧
      s.Tracks (handlerInterp (s.interp order) env o w).2
        (handlerInterp Slots.interp env o v).2 := by
  cases o with
  | store o =>
      obtain ⟨hanswer, hkeeps⟩ := hw.store.call o ho.2 order
      have hnext : s.Tracks { w with store := (s.interp order o w.store).2 }
          { v with store := (Slots.interp o v.store).2 } := ⟨hkeeps, hw.log⟩
      refine ⟨hanswer, ?_⟩
      simp only [Fileloft.handlerInterp, hanswer]
      cases o with
      | finalize id => exact hnext.note _
      | _ => exact hnext
  | acquire id | release id | newUuid | now | preCreate info => exact ⟨rfl, hw⟩
  | preFinish info | preTerminate info | emit event => exact ⟨rfl, hw.note _⟩

theorem Tracks.establishes (hw : s.Tracks w v) (o : HandlerOp) :
    Establishes UploadId.Valid o (Fileloft.handlerInterp (s.interp order) env o w).1 := by
  have hslots := @Slots.valid_of_establishes env o v
  have hanswer := fun o ho => (@Tracks.handlerInterp s order env w v hw o ho).1
  cases o with
  | store o =>
      cases o with
      | createUpload info | getUpload id =>
          rw [← (hanswer (.store _) ⟨trivial, fun _ hid => by cases hid⟩)] at hslots
          exact hslots
      | _ => trivial
  | _ => trivial

/-- A request is answered as over the slots. -/
theorem Tracks.serve (hw : s.Tracks w v) (req : TusRequest) :
    (Fileloft.serve h (s.interp order) env req w).1 =
        (Fileloft.serve h Slots.interp env req v).1 ∧
      s.Tracks (Fileloft.serve h (s.interp order) env req w).2
        (Fileloft.serve h Slots.interp env req v).2 := by
  obtain ⟨hanswer, hnext⟩ := Prog.Uses.run_simulates (R := s.Tracks)
    (h := Fileloft.handlerInterp (s.interp order) env)
      (g := Fileloft.handlerInterp Slots.interp env)
    (@TusHandler.makes _ h req) (fun o _ _ hw => hw.establishes o)
    (fun o _ _ ho hw => hw.handlerInterp o ho) hw
  exact ⟨congrArg Except.toOption hanswer, hnext⟩

theorem tracks_initial : s.Tracks s.backend.initial Slots.backend.initial := ⟨keeps_empty, rfl⟩

/-- The exchange without the order of its directory listings. -/
def slotted (x : Exchange s.backend) : Exchange Slots.backend := ⟨x.req, x.env, ()⟩

theorem Tracks.step (hw : s.Tracks w v) (x : Exchange s.backend) :
    (s.backend.serve h x w).1 = (Slots.backend.serve h (slotted x) v).1 ∧
      s.Tracks (s.backend.serve h x w).2 (Slots.backend.serve h (slotted x) v).2 :=
  hw.serve x.req

theorem Tracks.serveAll (hw : s.Tracks w v) (xs : List (Exchange s.backend)) :
    s.Tracks (s.backend.serveAll h xs w) (Slots.backend.serveAll h (xs.map slotted) v) := by
  induction xs generalizing w v with
  | nil => exact hw
  | cons x xs ih => exact ih (hw.step x).2

/-- Every reachable disk keeps the slots of a reachable store. -/
theorem tracks_of_reachable (hw : s.backend.Reachable h w) :
    ∃ v, Slots.backend.Reachable h v ∧ s.Tracks w v := by
  refine hw.invariant (I := fun w => ∃ v, Slots.backend.Reachable h v ∧ s.Tracks w v)
    ⟨_, .initial, tracks_initial⟩ fun w x ⟨v, hv, hw⟩ => ?_
  exact ⟨_, .step (slotted x) hv, (hw.step x).2⟩

end FileStore

end Fileloft
