import Fileloft.Memory.Final
import Fileloft.Server.Creation

/-!
# Creations over the in-memory store

A creation can stop at its partials, at its body, at the removal of a
partial, and at its end. The slot of the new upload is in the store by then,
and the partials removed so far are gone.
-/

namespace Fileloft.MemoryStore

open Handler Post

section Stages

variable {h : TusHandler} {env : Env} {req : TusRequest} {st : MemoryStore} {p : Parsed}
  {info : UploadInfo} {entry : MemoryUploadState} {id : UploadId} {ids : List UploadId}

/-- The partials of a final upload are there, partial and complete. -/
def Ready (st : MemoryStore) (p : Parsed) (info : UploadInfo) : Prop :=
  p.isFinal = true → info.id ∉ info.partialUploads ∧
    ∀ i ∈ info.partialUploads, ∃ info', IsPart interp st i info'

/-- The new upload once its partials are joined. -/
def joined (st : MemoryStore) (p : Parsed) (info : UploadInfo) : MemoryUploadState :=
  if p.isFinal then joinedEntry info (info.partialUploads.flatMap (dataOf st)) else ⟨info, []⟩

/-- The body is read whole and fits into the upload. -/
def Fits (h : TusHandler) (req : TusRequest) (entry : MemoryUploadState) : Prop :=
  ∀ body, uploadBody h req = some body → ∃ buf, body = .ok buf ∧ buf.length < U64_BOUND ∧
    ∀ size, entry.info.size = some size → buf.length ≤ size

/-- The new upload once its body is written. -/
def filled (h : TusHandler) (req : TusRequest) (entry : MemoryUploadState) : MemoryUploadState :=
  match uploadBody h req with
  | some (.ok buf) => ⟨{ entry.info with offset := buf.length }, writeAt entry.data 0 buf⟩
  | _ => entry

/-- The new upload as a creation leaves it. -/
def stored (h : TusHandler) (req : TusRequest) (st : MemoryStore) (p : Parsed)
    (info : UploadInfo) : MemoryUploadState := filled h req (joined st p info)

/-- The partials are to be removed. -/
def tidies (h : TusHandler) (p : Parsed) : Bool :=
  p.isFinal && h.config.extensions.concatenation && h.config.extensions.cleanupConcatPartials

/-- The `pre_terminate` callback lets the upload go. -/
def Accepted (h : TusHandler) (env : Env) (st : MemoryStore) (id : UploadId) : Prop :=
  ∀ entry, st id = some entry → env.terminateAnswer h entry.info = .ok ()

def without (st : MemoryStore) (ids : List UploadId) : MemoryStore :=
  fun id => if id ∈ ids then none else st id

/-- The partials that are gone when nothing refuses. -/
def removed (h : TusHandler) (p : Parsed) (info : UploadInfo) : List UploadId :=
  if tidies h p then info.partialUploads else []

/-- Where a creation stops after `create_upload`: what it has stored in the
new slot by then, and the partials it has deleted. -/
inductive Stops (h : TusHandler) (env : Env) (req : TusRequest) (st : MemoryStore) (p : Parsed)
    (info : UploadInfo) : MemoryUploadState → List UploadId → Prop where
  | parts (hready : ¬ Ready st p info) : Stops h env req st p info ⟨info, []⟩ []
  | body (hready : Ready st p info) (hfits : ¬ Fits h req (joined st p info)) :
      Stops h env req st p info (joined st p info) []
  | removal (hready : Ready st p info) (hfits : Fits h req (joined st p info))
      (htidies : tidies h p = true) {done rest : List UploadId} {id : UploadId}
      (hids : info.partialUploads = done ++ id :: rest) (hdone : done.Nodup)
      (haccepted : ∀ i ∈ done, Accepted h env st i)
      (hstop : id ∈ done ∨ ¬ Accepted h env st id) :
      Stops h env req st p info (stored h req st p info) done
  | finish (hready : Ready st p info) (hfits : Fits h req (joined st p info))
      (hremoved : (removed h p info).Nodup ∧ ∀ i ∈ removed h p info, Accepted h env st i)
      (hstop : ((stored h req st p info).info.isComplete = true ∧
          ∃ e, env.finishAnswer h (stored h req st p info).info = .error e) ∨
        ∃ e, createdHeaders h req (stored h req st p info).info = .error e) :
      Stops h env req st p info (stored h req st p info) (removed h p info)

theorem without_nil : without st [] = st := by
  funext id
  simp [without]

theorem isPart_update {info' : UploadInfo} {i : UploadId} (hne : i ≠ id) :
    IsPart interp (Function.update st id (some entry)) i info' ↔ IsPart interp st i info' := by
  have hget : interp (.getUpload i) (Function.update st id (some entry)) =
      ((interp (.getUpload i) st).1, Function.update st id (some entry)) := by
    simp [interp, getUpload, Function.update_of_ne hne]
  have hinfo : (interp (.getInfo i) (Function.update st id (some entry))).1 =
      (interp (.getInfo i) st).1 := by
    simp [interp, getInfo, Function.update_of_ne hne]
  constructor
  · rintro ⟨hfound, hstored, hpart, hcomplete⟩
    exact ⟨by rw [← hfound, hget], by rw [← hstored, hinfo], hpart, hcomplete⟩
  · rintro ⟨hfound, hstored, hpart, hcomplete⟩
    exact ⟨by rw [hget, hfound], by rw [hinfo, hstored], hpart, hcomplete⟩

/-- The partials a final creation finds are those of the store before it. -/
theorem ready_iff (hself : p.isFinal = true → info.isPartial = false) (hfinal : p.isFinal = true) :
    Ready st p info ↔ ∃ infos, List.Forall₂
      (IsPart interp (Function.update st info.id (some ⟨info, []⟩))) info.partialUploads infos := by
  constructor
  · intro hready
    obtain ⟨hne, hparts⟩ := hready hfinal
    rw [exists_forall₂_iff]
    intro i hi
    obtain ⟨info', hpart⟩ := hparts i hi
    refine ⟨info', (isPart_update ?_).mpr hpart⟩
    rintro rfl
    exact hne hi
  · rintro ⟨infos, hparts⟩ -
    have hne := parts_ne (hself hfinal) hparts
    refine ⟨fun hmem => hne _ hmem rfl, fun i hi => ?_⟩
    obtain ⟨info', hpart⟩ := exists_forall₂_iff.mp ⟨infos, hparts⟩ i hi
    exact ⟨info', (isPart_update (hne i hi)).mp hpart⟩

theorem ready_of_fetched {infos : List UploadInfo} (hne : info.id ∉ info.partialUploads)
    (hfetched : fetched interp st info.partialUploads = .ok infos) : Ready st p info :=
  fun _ => ⟨hne, exists_forall₂_iff.mp ⟨infos, fetched_eq_ok.mp hfetched⟩⟩

theorem joining_ready (hkeyed : Keyed st) (hself : p.isFinal = true → info.isPartial = false)
    (hconcat : p.isFinal = true → h.config.extensions.concatenation = true)
    (hready : Ready st p info) :
    joining interp h p info (Function.update st info.id (some ⟨info, []⟩)) =
      (.ok (), Function.update st info.id (some (joined st p info))) := by
  unfold joining joined
  cases hfinal : p.isFinal with
  | false => rfl
  | true =>
      obtain ⟨infos, hparts⟩ := (ready_iff hself hfinal).mp hready
      have hne := parts_ne (hself hfinal) hparts
      have hkeyed' : Keyed (Function.update st info.id (some ⟨info, []⟩)) := hkeyed.update rfl
      have hdata := combined_parts hkeyed' hparts
      rw [dataOf_update hne] at hdata
      simp only [hconcat hfinal, Bool.and_self, if_true, fetched_eq_ok.mpr hparts]
      simp [interp, concatenate, hdata, joinedEntry]

theorem joining_unready (hself : p.isFinal = true → info.isPartial = false)
    (hconcat : p.isFinal = true → h.config.extensions.concatenation = true)
    (hready : ¬ Ready st p info) :
    ∃ e, joining interp h p info (Function.update st info.id (some ⟨info, []⟩)) =
      (.error e, Function.update st info.id (some ⟨info, []⟩)) := by
  have hfinal : p.isFinal = true := by
    by_contra hfinal
    exact hready fun htrue => absurd htrue hfinal
  rw [ready_iff hself hfinal] at hready
  simp only [joining, hfinal, hconcat hfinal, Bool.and_self, if_true]
  cases hfetch : fetched interp (Function.update st info.id (some ⟨info, []⟩))
    info.partialUploads with
  | error e => exact ⟨e, rfl⟩
  | ok infos => exact absurd ⟨infos, fetched_eq_ok.mp hfetch⟩ hready

/-- How much a creation writes. -/
def bodyLength (h : TusHandler) (req : TusRequest) : ℕ :=
  match uploadBody h req with
  | some (.ok buf) => buf.length
  | _ => 0

theorem writing_fits (hfits : Fits h req entry) :
    writing interp h req id (Function.update st id (some entry)) =
      (.ok (bodyLength h req), Function.update st id (some (filled h req entry))) := by
  unfold writing filled bodyLength
  cases hbody : uploadBody h req with
  | none => rfl
  | some body =>
      obtain ⟨buf, rfl, hbounded, hsize⟩ := hfits body hbody
      have hend : chunkEnd entry.info 0 buf.length = .ok buf.length :=
        chunkEnd_eq_ok.mpr ⟨by simp, by simpa using hbounded, by simpa using hsize⟩
      simp [interp, writeChunk, hend]

theorem writing_unfit (hfits : ¬ Fits h req entry) :
    ∃ e, writing interp h req id (Function.update st id (some entry)) =
      (.error e, Function.update st id (some entry)) := by
  unfold writing
  cases hbody : uploadBody h req with
  | none => exact absurd (fun body hsome => by simp [hbody] at hsome) hfits
  | some body =>
      cases body with
      | error e => exact ⟨.io e, rfl⟩
      | ok buf =>
          simp only [interp, writeChunk, Function.update_self]
          cases hend : chunkEnd entry.info 0 buf.length with
          | error e => exact ⟨e, rfl⟩
          | ok finish =>
              obtain ⟨-, hbounded, hsize⟩ := chunkEnd_eq_ok.mp hend
              refine absurd (fun body hsome => ?_) hfits
              obtain rfl : Except.ok buf = body := by simpa [hbody] using hsome
              exact ⟨buf, rfl, by simpa using hbounded, by simpa using hsize⟩

/-- A written body is within the length of the upload. -/
theorem checking_filled (hfits : Fits h req entry) :
    checking interp id (bodyLength h req) (Function.update st id (some (filled h req entry))) =
      (.ok (filled h req entry).info, Function.update st id (some (filled h req entry))) := by
  have hinfo : (interp (.getInfo id) (Function.update st id (some (filled h req entry)))).1 =
      .ok (filled h req entry).info := by
    simp [interp, getInfo]
  have hlength : withinLength (filled h req entry).info (bodyLength h req) = .ok () := by
    have hsame : (filled h req entry).info.size = entry.info.size := by
      unfold filled
      split <;> rfl
    unfold withinLength bodyLength
    rw [hsame]
    cases hsize : entry.info.size with
    | none => rfl
    | some size =>
        apply guardWith_eq_ok.mpr
        cases hbody : uploadBody h req with
        | none => simp
        | some body =>
            obtain ⟨buf, rfl, -, hle⟩ := hfits body hbody
            simpa using hle size hsize
  simp [checking, hinfo, hlength, bind, Except.bind, pure, Except.pure]

theorem removable_some (hentry : st id = some entry) :
    removable interp h env id st = env.terminateAnswer h entry.info := by
  simp only [removable, interp, getUpload, getInfo, hentry, Option.isSome_some, if_true, bind,
    Except.bind, Env.terminateAnswer]
  rfl

theorem removable_none (hentry : st id = none) :
    removable interp h env id st = .error (.notFound id.val) := by
  simp [removable, interp, getUpload, hentry, bind, Except.bind]

theorem without_cons (id : UploadId) (ids : List UploadId) :
    without st (id :: ids) = without (Function.update st id none) ids := by
  funext i
  by_cases hmem : i ∈ ids
  · simp [without, hmem]
  · by_cases heq : i = id <;> simp [without, hmem, heq]

theorem accepted_update_none {i : UploadId} (hne : i ≠ id) :
    Accepted h env (Function.update st id none) i ↔ Accepted h env st i := by
  simp [Accepted, Function.update_of_ne hne]

/-- The accepted partials at the front are removed, whatever follows them. -/
theorem removing_append {done : List UploadId} (hdone : done.Nodup)
    (hfound : ∀ i ∈ done, st i ≠ none) (haccepted : ∀ i ∈ done, Accepted h env st i) :
    removing interp h env (done ++ ids) st = removing interp h env ids (without st done) := by
  induction done generalizing st with
  | nil => rw [without_nil, List.nil_append]
  | cons i done ih =>
      obtain ⟨hi, hdone⟩ := List.nodup_cons.mp hdone
      obtain ⟨hfound₀, hfound⟩ := List.forall_mem_cons.mp hfound
      obtain ⟨haccepted₀, haccepted⟩ := List.forall_mem_cons.mp haccepted
      obtain ⟨entry, hentry⟩ := Option.ne_none_iff_exists'.mp hfound₀
      have hne {j : UploadId} (hj : j ∈ done) : j ≠ i := by
        rintro rfl
        exact hi hj
      have hdelete : interp (.delete i) st = (.ok (), Function.update st i none) := by
        simp [interp, delete, hentry]
      simp only [List.cons_append, removing, removable_some hentry, haccepted₀ entry hentry,
        hdelete]
      rw [without_cons, ih hdone ?_ ?_]
      · intro j hj
        rw [Function.update_of_ne (hne hj)]
        exact hfound j hj
      · intro j hj
        exact (accepted_update_none (hne hj)).mpr (haccepted j hj)

theorem removing_stop {done : List UploadId}
    (hstop : id ∈ done ∨ ¬ Accepted h env st id) :
    ∃ e, removing interp h env (id :: ids) (without st done) = (.error e, without st done) := by
  by_cases hmem : id ∈ done
  · have hnone : without st done id = none := by simp [without, hmem]
    exact ⟨_, by rw [removing, removable_none hnone]⟩
  · have hrefused := hstop.resolve_left hmem
    unfold Accepted at hrefused
    push Not at hrefused
    obtain ⟨entry, hentry, hrefused⟩ := hrefused
    have hsome : without st done id = some entry := by simpa [without, hmem] using hentry
    cases hanswer : env.terminateAnswer h entry.info with
    | ok _ => exact absurd hanswer hrefused
    | error e => exact ⟨e, by rw [removing, removable_some hsome, hanswer]⟩

theorem joined_partialUploads :
    (joined st p info).info.partialUploads = info.partialUploads := by
  unfold joined
  split <;> rfl

theorem filled_partialUploads :
    (filled h req entry).info.partialUploads = entry.info.partialUploads := by
  unfold filled
  split <;> rfl

theorem stored_partialUploads :
    (stored h req st p info).info.partialUploads = info.partialUploads :=
  filled_partialUploads.trans joined_partialUploads

/-- The store with the new upload in it and the removed partials gone. -/
def left (st : MemoryStore) (info : UploadInfo) (entry : MemoryUploadState)
    (deleted : List UploadId) : MemoryStore :=
  Function.update (without st deleted) info.id (some entry)

theorem left_nil : left st info entry [] = Function.update st info.id (some entry) := by
  rw [left, without_nil]

theorem without_update (hid : id ∉ ids) :
    without (Function.update st id (some entry)) ids =
      Function.update (without st ids) id (some entry) := by
  funext i
  by_cases heq : i = id
  · subst heq
    simp [without, hid]
  · simp [without, Function.update_of_ne heq]

theorem accepted_update_some {i : UploadId} (hne : i ≠ id) :
    Accepted h env (Function.update st id (some entry)) i ↔ Accepted h env st i := by
  simp [Accepted, Function.update_of_ne hne]

section Removal

variable (hid : info.id ∉ ids) (hfound : ∀ i ∈ ids, st i ≠ none) (entry : MemoryUploadState)

include hid hfound

theorem removing_left {done rest : List UploadId} (hids : ids = done ++ rest) (hdone : done.Nodup)
    (haccepted : ∀ i ∈ done, Accepted h env st i) :
    removing interp h env ids (Function.update st info.id (some entry)) =
      removing interp h env rest (left st info entry done) := by
  have hne {i : UploadId} (hi : i ∈ done) : i ≠ info.id := by
    rintro rfl
    exact hid (hids ▸ List.mem_append_left _ hi)
  rw [hids, removing_append hdone, without_update fun hmem => hne hmem rfl]
  · rfl
  · intro i hi
    rw [Function.update_of_ne (hne hi)]
    exact hfound i (hids ▸ List.mem_append_left _ hi)
  · intro i hi
    exact (accepted_update_some (hne hi)).mpr (haccepted i hi)

theorem removing_left_stop {done rest : List UploadId} (hids : ids = done ++ id :: rest)
    (hdone : done.Nodup) (haccepted : ∀ i ∈ done, Accepted h env st i)
    (hstop : id ∈ done ∨ ¬ Accepted h env st id) :
    ∃ e, removing interp h env ids (Function.update st info.id (some entry)) =
      (.error e, left st info entry done) := by
  have hne : id ≠ info.id := by
    rintro rfl
    exact hid (by simp [hids])
  have hnot : info.id ∉ done := fun hmem => hid (hids ▸ List.mem_append_left _ hmem)
  rw [removing_left hid hfound entry hids hdone haccepted, left, ← without_update hnot]
  exact removing_stop (hstop.imp_right fun hrefused hok =>
    hrefused ((accepted_update_some hne).mp hok))

end Removal

theorem Ready.found (hready : Ready st p info) (hfinal : p.isFinal = true) :
    ∀ i ∈ info.partialUploads, st i ≠ none := by
  intro i hi
  obtain ⟨info', hpart⟩ := (hready hfinal).2 i hi
  obtain ⟨entry, hentry, -⟩ := IsPart.entry hpart
  simp [hentry]

theorem tidies_final (htidies : tidies h p = true) : p.isFinal = true := by
  simp only [tidies, Bool.and_eq_true] at htidies
  exact htidies.1.1

theorem tidying_stop {done rest : List UploadId} (hready : Ready st p info)
    (htidies : tidies h p = true) (hids : info.partialUploads = done ++ id :: rest)
    (hdone : done.Nodup) (haccepted : ∀ i ∈ done, Accepted h env st i)
    (hstop : id ∈ done ∨ ¬ Accepted h env st id)
    (hpartials : entry.info.partialUploads = info.partialUploads) :
    ∃ e, tidying interp h env p info.id entry.info (Function.update st info.id (some entry)) =
      (.error e, left st info entry done) := by
  have hfinal := tidies_final htidies
  obtain ⟨e, hremoving⟩ := removing_left_stop (hready hfinal).1
    (hready.found hfinal) entry hids hdone haccepted hstop
  refine ⟨e, ?_⟩
  unfold tidies at htidies
  rw [tidying, if_pos htidies, hpartials, hremoving]
  rfl

theorem tidying_pass (hready : Ready st p info)
    (hremoved : (removed h p info).Nodup ∧ ∀ i ∈ removed h p info, Accepted h env st i)
    (hpartials : entry.info.partialUploads = info.partialUploads) :
    tidying interp h env p info.id entry.info (Function.update st info.id (some entry)) =
      (.ok entry.info, left st info entry (removed h p info)) := by
  unfold removed at *
  cases htidies : tidies h p with
  | false =>
      unfold tidies at htidies
      simp [tidying, htidies, left_nil]
  | true =>
      have hfinal := tidies_final htidies
      simp only [htidies, if_true] at hremoved
      have hremoving := removing_left (hready hfinal).1 (hready.found hfinal) entry
        (List.append_nil _).symm hremoved.1 hremoved.2
      unfold tidies at htidies
      rw [tidying, if_pos htidies, hpartials, hremoving]
      simp [removing, andThen, left, interp, getInfo]

/-- What stops a creation before its end also stops its stages. -/
theorem filling_parts (hself : p.isFinal = true → info.isPartial = false)
    (hconcat : p.isFinal = true → h.config.extensions.concatenation = true)
    (hready : ¬ Ready st p info) :
    ∃ e, filling interp h env req p info (Function.update st info.id (some ⟨info, []⟩)) =
      (.error e, left st info ⟨info, []⟩ []) := by
  obtain ⟨e, hjoining⟩ := @joining_unready h _ _ _ hself hconcat hready
  exact ⟨e, by rw [filling, hjoining, left_nil]; rfl⟩

theorem filling_body (hkeyed : Keyed st) (hself : p.isFinal = true → info.isPartial = false)
    (hconcat : p.isFinal = true → h.config.extensions.concatenation = true)
    (hready : Ready st p info) (hfits : ¬ Fits h req (joined st p info)) :
    ∃ e, filling interp h env req p info (Function.update st info.id (some ⟨info, []⟩)) =
      (.error e, left st info (joined st p info) []) := by
  obtain ⟨e, hwriting⟩ := @writing_unfit h req st _ info.id hfits
  refine ⟨e, ?_⟩
  rw [filling, joining_ready hkeyed hself hconcat hready, left_nil]
  simp only [andThen, hwriting]

theorem filling_fits (hkeyed : Keyed st) (hself : p.isFinal = true → info.isPartial = false)
    (hconcat : p.isFinal = true → h.config.extensions.concatenation = true)
    (hready : Ready st p info) (hfits : Fits h req (joined st p info)) :
    filling interp h env req p info (Function.update st info.id (some ⟨info, []⟩)) =
      tidying interp h env p info.id (stored h req st p info).info
        (Function.update st info.id (some (stored h req st p info))) := by
  rw [filling, joining_ready hkeyed hself hconcat hready]
  simp only [andThen, writing_fits hfits, checking_filled hfits, stored]

/-- A list that fails a check does so at a first position. -/
theorem exists_first_failure {α : Type} {P : α → Prop} {l : List α}
    (hfails : ¬ (l.Nodup ∧ ∀ a ∈ l, P a)) :
    ∃ done a rest, l = done ++ a :: rest ∧ done.Nodup ∧ (∀ b ∈ done, P b) ∧ (a ∈ done ∨ ¬ P a) := by
  induction l using List.reverseRecOn with
  | nil => exact absurd ⟨List.nodup_nil, by simp⟩ hfails
  | append_singleton l a ih =>
      by_cases hl : l.Nodup ∧ ∀ b ∈ l, P b
      · refine ⟨l, a, [], rfl, hl.1, hl.2, ?_⟩
        by_contra hpasses
        push Not at hpasses
        apply hfails
        constructor
        · have hperm : (l ++ [a]).Perm (a :: l) := List.perm_append_comm
          exact hperm.nodup_iff.mpr (List.nodup_cons.mpr ⟨hpasses.1, hl.1⟩)
        · intro b hb
          rcases List.mem_append.mp hb with hb | hb
          · exact hl.2 b hb
          · rw [List.mem_singleton.mp hb]
            exact hpasses.2
      · obtain ⟨done, b, rest, rfl, hdone, hpasses, hstop⟩ := ih hl
        exact ⟨done, b, rest ++ [a], by simp, hdone, hpasses, hstop⟩

theorem finishing_stop {s : MemoryStore} {info : UploadInfo}
    (hstop : (info.isComplete = true ∧ ∃ e, env.finishAnswer h info = .error e) ∨
      ∃ e, createdHeaders h req info = .error e) :
    ∃ e, finishing interp h env req id info s = (.error e, s) := by
  unfold finishing completing created
  cases hcomplete : info.isComplete with
  | false =>
      obtain ⟨e, hheaders⟩ := hstop.resolve_left (by simp [hcomplete])
      exact ⟨e, by simp [andThen, hheaders, Except.map]⟩
  | true =>
      cases hanswer : env.finishAnswer h info with
      | error e => exact ⟨e, rfl⟩
      | ok _ =>
          obtain ⟨e, hheaders⟩ := hstop.resolve_left (by simp [hanswer])
          exact ⟨e, by simp [andThen, interp, hheaders, Except.map]⟩

theorem finishing_pass {s : MemoryStore} {info : UploadInfo}
    (hpass : ¬ ((info.isComplete = true ∧ ∃ e, env.finishAnswer h info = .error e) ∨
      ∃ e, createdHeaders h req info = .error e)) :
    ∃ resp, finishing interp h env req id info s = (.ok resp, s) ∧ resp.status = 201 := by
  push Not at hpass
  obtain ⟨hanswer, hheaders⟩ := hpass
  unfold finishing completing created
  cases hmap : createdHeaders h req info with
  | error e => exact absurd hmap (hheaders e)
  | ok m =>
      refine ⟨h.response 201 m [], ?_, rfl⟩
      cases hcomplete : info.isComplete with
      | false => rfl
      | true =>
          cases haccept : env.finishAnswer h info with
          | error e => exact absurd haccept (hanswer hcomplete e)
          | ok _ => rfl

end Stages

section Run

variable {h : TusHandler} {env : Env} {req : TusRequest} {p : Parsed} {info : UploadInfo}
  {entry : MemoryUploadState} {deleted : List UploadId} {w : World MemoryStore}

/-- The stages of a creation are those of a store that has the new slot. -/
theorem run_create (p : Parsed) (info : UploadInfo) (w : World MemoryStore) :
    ∃ l, (create h req p info).run (handlerInterp interp env) w =
      ((check (filling interp h env req p info
          (Function.update w.store info.id (some ⟨info, []⟩))).1).bind fun finalInfo =>
        finish h req info.id finalInfo).run (handlerInterp interp env)
          ⟨(filling interp h env req p info
            (Function.update w.store info.id (some ⟨info, []⟩))).2, w.log ++ l⟩ := by
  rw [create, Prog.bind_eq, run_createUpload_bind]
  exact run_fill pureReads p info
    { w with store := Function.update w.store info.id (some ⟨info, []⟩) }

theorem Stops.run (hkeyed : Keyed w.store) (hp : Prepared h req p info)
    (hstops : Stops h env req w.store p info entry deleted) :
    ∃ e w', (create h req p info).run (handlerInterp interp env) w = (.error (.error e), w') ∧
      w'.store = left w.store info entry deleted := by
  have hself := hp.not_isPartial
  have hconcat := hp.concatenation
  obtain ⟨l, hrun⟩ := @run_create h env req p info w
  rw [hrun]
  cases hstops with
  | parts hready =>
      obtain ⟨e, hfilling⟩ := @filling_parts h env req _ _ _ hself hconcat hready
      rw [hfilling]
      exact ⟨e, _, rfl, rfl⟩
  | body hready hfits =>
      obtain ⟨e, hfilling⟩ := @filling_body h env req _ _ _ hkeyed hself hconcat hready hfits
      rw [hfilling]
      exact ⟨e, _, rfl, rfl⟩
  | removal hready hfits htidies hids hdone haccepted hstop =>
      obtain ⟨e, htidying⟩ := tidying_stop hready htidies hids hdone haccepted hstop
        (@stored_partialUploads h req w.store p info)
      rw [filling_fits hkeyed hself hconcat hready hfits, htidying]
      exact ⟨e, _, rfl, rfl⟩
  | finish hready hfits hremoved hstop =>
      have htidying := tidying_pass hready hremoved
        (@stored_partialUploads h req w.store p info)
      obtain ⟨e, hfinishing⟩ := @finishing_stop h env req info.id
        (left w.store info (stored h req w.store p info) (removed h p info)) _ hstop
      rw [filling_fits hkeyed hself hconcat hready hfits, htidying]
      simp only [check_ok, Prog.ret_bind]
      obtain ⟨m, hfinish, -⟩ :=
        @Post.run_finish _ interp h env req info.id (stored h req w.store p info).info
        ⟨left w.store info (stored h req w.store p info) (removed h p info), w.log ++ l⟩
      rw [hfinishing] at hfinish
      exact ⟨e, _, hfinish, rfl⟩

/-- What a creation deletes are partials it has found. -/
theorem Stops.of_mem_deleted {st : MemoryStore} (hstops : Stops h env req st p info entry deleted) :
    ∀ i ∈ deleted, i ≠ info.id ∧ st i ≠ none := by
  have hpartial (hready : Ready st p info) (hfinal : p.isFinal = true) :
      ∀ i ∈ info.partialUploads, i ≠ info.id ∧ st i ≠ none := by
    intro i hi
    refine ⟨?_, hready.found hfinal i hi⟩
    rintro rfl
    exact (hready hfinal).1 hi
  cases hstops with
  | parts | body => simp
  | removal hready _ htidies hids =>
      intro i hi
      exact hpartial hready (tidies_final htidies) i (hids ▸ List.mem_append_left _ hi)
  | finish hready =>
      intro i hi
      unfold removed at hi
      split at hi
      · next htidies => exact hpartial hready (tidies_final htidies) i hi
      · simp at hi

/-- A creation that nothing stops has its partials, its body and the consent
to every removal. -/
theorem of_not_stops {st : MemoryStore}
    (hpass : ∀ entry deleted, ¬ Stops h env req st p info entry deleted) :
    Ready st p info ∧ Fits h req (joined st p info) ∧ (removed h p info).Nodup ∧
      ∀ i ∈ removed h p info, Accepted h env st i := by
  have hready : Ready st p info := by
    by_contra hready
    exact hpass _ _ (.parts hready)
  have hfits : Fits h req (joined st p info) := by
    by_contra hfits
    exact hpass _ _ (.body hready hfits)
  refine ⟨hready, hfits, ?_⟩
  by_contra hfails
  obtain ⟨done, id, rest, hids, hdone, haccepted, hstop⟩ := exists_first_failure hfails
  unfold removed at hids
  split at hids
  · next htidies => exact hpass _ _ (.removal hready hfits htidies hids hdone haccepted hstop)
  · simp at hids

/-- A creation that nothing stops stores the upload and is answered. -/
theorem run_create_pass (hkeyed : Keyed w.store) (hp : Prepared h req p info)
    (hpass : ∀ entry deleted, ¬ Stops h env req w.store p info entry deleted) :
    ∃ resp w', (create h req p info).run (handlerInterp interp env) w = (.ok resp, w') ∧
      resp.status = 201 ∧
      w'.store = left w.store info (stored h req w.store p info) (removed h p info) := by
  have hself := hp.not_isPartial
  have hconcat := hp.concatenation
  obtain ⟨hready, hfits, hremoved⟩ := of_not_stops hpass
  have htidying := tidying_pass hready hremoved
    (@stored_partialUploads h req w.store p info)
  obtain ⟨resp, hfinishing, hstatus⟩ := @finishing_pass h env req info.id
    (left w.store info (stored h req w.store p info) (removed h p info))
    (stored h req w.store p info).info
    fun hstop => hpass _ _ (.finish hready hfits hremoved hstop)
  obtain ⟨l, hrun⟩ := @run_create h env req p info w
  rw [hrun, filling_fits hkeyed hself hconcat hready hfits, htidying]
  simp only [check_ok, Prog.ret_bind]
  obtain ⟨m, hfinish, -⟩ :=
    @Post.run_finish _ interp h env req info.id (stored h req w.store p info).info
    ⟨left w.store info (stored h req w.store p info) (removed h p info), w.log ++ l⟩
  rw [hfinishing] at hfinish
  exact ⟨resp, _, hfinish, hstatus, rfl⟩

/-- What a creation leaves in the new slot. -/
inductive Leaves (h : TusHandler) (req : TusRequest) (st : MemoryStore) (p : Parsed)
    (info : UploadInfo) : MemoryUploadState → Prop where
  | created (hready : ¬ Ready st p info) : Leaves h req st p info ⟨info, []⟩
  | joined (hready : Ready st p info) (hfits : ¬ Fits h req (joined st p info)) :
      Leaves h req st p info (joined st p info)
  | stored (hready : Ready st p info) (hfits : Fits h req (MemoryStore.joined st p info)) :
      Leaves h req st p info (stored h req st p info)

theorem Leaves.unique {st : MemoryStore} {entry' : MemoryUploadState}
    (hl : Leaves h req st p info entry) (hl' : Leaves h req st p info entry') : entry = entry' := by
  cases hl with
  | created hready =>
      cases hl' with
      | created => rfl
      | joined hready' | stored hready' => exact absurd hready' hready
  | joined hready hfits =>
      cases hl' with
      | created hready' => exact absurd hready hready'
      | joined => rfl
      | stored _ hfits' => exact absurd hfits' hfits
  | stored hready hfits =>
      cases hl' with
      | created hready' => exact absurd hready hready'
      | joined _ hfits' => exact absurd hfits hfits'
      | stored => rfl

theorem Stops.leaves {st : MemoryStore} (hstops : Stops h env req st p info entry deleted) :
    Leaves h req st p info entry ∧ (tidies h p = false → deleted = []) := by
  cases hstops with
  | parts hready => exact ⟨.created hready, fun _ => rfl⟩
  | body hready hfits => exact ⟨.joined hready hfits, fun _ => rfl⟩
  | removal hready hfits htidies => exact ⟨.stored hready hfits, by simp [htidies]⟩
  | finish hready hfits => exact ⟨.stored hready hfits, by simp +contextual [removed]⟩

/-- A creation that got as far as `create_upload` leaves a slot behind. -/
theorem serve_post {x : Exchange backend} (hkeyed : Keyed w.store) (hmethod : x.req.method = .post)
    (hprepare : prepare h x.env x.req = .ok (p, info)) :
    ∃ entry deleted, Leaves h x.req w.store p info entry ∧ info.id ∉ deleted ∧
      (tidies h p = false → deleted = []) ∧
      (backend.serve h x w).2.store = left w.store info entry deleted := by
  have hp := prepare_ok hprepare
  have hserve : (backend.serve h x w).2 =
      ((create h x.req p info).run (handlerInterp interp x.env) w).2 :=
    serve_prepared hmethod hprepare
  rw [hserve]
  by_cases hpass : ∀ entry deleted, ¬ Stops h x.env x.req w.store p info entry deleted
  · obtain ⟨resp, w', hrun, -, hstore⟩ := run_create_pass hkeyed hp hpass
    obtain ⟨hready, hfits, -⟩ := of_not_stops hpass
    refine ⟨_, removed h p info, .stored hready hfits, ?_, by simp +contextual [removed],
      by rw [hrun, hstore]⟩
    unfold removed
    split
    · next htidies => exact (hready (tidies_final htidies)).1
    · simp
  · push Not at hpass
    obtain ⟨entry, deleted, hstops⟩ := hpass
    obtain ⟨e, w', hrun, hstore⟩ := hstops.run hkeyed hp
    refine ⟨entry, deleted, hstops.leaves.1, fun hmem => ?_, hstops.leaves.2, by rw [hrun, hstore]⟩
    exact (hstops.of_mem_deleted _ hmem).1 rfl

/-- A refused creation leaves every upload as it was, and that holds exactly
when what it has stored by then was already there. -/
theorem post_error_unchanged_iff {x : Exchange backend} {w : World MemoryStore}
    (hw : backend.Reachable h w) (hmethod : x.req.method = .post) :
    (∀ resp, (backend.serve h x w).1 = some resp → 400 ≤ resp.status →
      (backend.serve h x w).2.store = w.store) ↔
    ∀ p info, prepare h x.env x.req = .ok (p, info) → ∀ entry deleted,
      Stops h x.env x.req w.store p info entry deleted →
        deleted = [] ∧ w.store info.id = some entry := by
  have hkeyed := keyed_of_reachable hw
  have hserve : backend.serve h x w =
      (respond h ((Post.handle h x.req).run (handlerInterp interp x.env) w).1,
        ((Post.handle h x.req).run (handlerInterp interp x.env) w).2) := by
    have heq := serve_eq interp x.env h w x.req
    rw [TusHandler.dispatch, hmethod] at heq
    exact heq
  rw [hserve, Post.run_handle]
  rcases hprepare : prepare h x.env x.req with e | ⟨p, info⟩
  · exact iff_of_true (fun _ _ _ => rfl) fun p info hok => by cases hok
  have hp := prepare_ok hprepare
  simp only [Except.ok.injEq, Prod.mk.injEq]
  constructor
  · rintro hsame p' info' ⟨rfl, rfl⟩ entry deleted hstops
    obtain ⟨e, w', hrun, hstore⟩ := hstops.run hkeyed hp
    rw [hrun] at hsame
    have hkept := hsame _ rfl (h.errorResponse_status e)
    rw [hstore] at hkept
    constructor
    · apply List.eq_nil_iff_forall_not_mem.mpr
      intro i hi
      obtain ⟨hne, hfound⟩ := hstops.of_mem_deleted i hi
      apply hfound
      rw [← hkept, left, Function.update_of_ne hne]
      simp [without, hi]
    · rw [← hkept, left, Function.update_self]
  · intro hsame resp hresp hstatus
    by_cases hpass : ∀ entry deleted, ¬ Stops h x.env x.req w.store p info entry deleted
    · obtain ⟨resp', w', hrun, hcreated, -⟩ := run_create_pass hkeyed hp hpass
      rw [hrun] at hresp
      obtain rfl : resp' = resp := by simpa [respond] using hresp
      omega
    · push Not at hpass
      obtain ⟨entry, deleted, hstops⟩ := hpass
      obtain ⟨rfl, hentry⟩ := hsame p info ⟨rfl, rfl⟩ entry deleted hstops
      obtain ⟨e, w', hrun, hstore⟩ := hstops.run hkeyed hp
      rw [hrun, hstore, left_nil, ← hentry, Function.update_eq_self]

end Run

namespace UnknownPartial

def handler : TusHandler := ⟨{ extensions := { concatenation := true } }, true, .fixed⟩

/-- A final upload of a partial that does not exist. -/
def post : Exchange backend where
  req := .ofTexts .post none [(.tusResumable, "1.0.0"),
    (.uploadConcat, "final;/files/b1234567-89ab-4cde-8fed-0123456789ab")] none
  env := .permissive .a
  choice := ()

end UnknownPartial

open UnknownPartial in
theorem post_error_unchanged_iff_unknown :
    (∀ resp, (backend.serve handler post backend.initial).1 = some resp → 400 ≤ resp.status →
      (backend.serve handler post backend.initial).2.store = backend.initial.store) ↔
    ∀ p info, prepare handler post.env post.req = .ok (p, info) → ∀ entry deleted,
      Stops handler post.env post.req backend.initial.store p info entry deleted →
        deleted = [] ∧ backend.initial.store info.id = some entry :=
  post_error_unchanged_iff .initial rfl

open UnknownPartial in
/-- The slot of a final upload stays behind when its partial is unknown. -/
theorem post_error_leaves_slot :
    backend.Reachable handler backend.initial ∧ post.req.method = .post ∧
      (backend.serve handler post backend.initial).1.map TusResponse.status = some 404 ∧
      ((backend.serve handler post backend.initial).2.store (.new .a)).isSome = true ∧
      (backend.serve handler post backend.initial).2.store ≠ backend.initial.store := by
  have hslot : ((backend.serve handler post backend.initial).2.store (.new .a)).isSome = true := by
    decide +kernel
  refine ⟨.initial, rfl, by decide +kernel, hslot, fun hsame => ?_⟩
  rw [hsame] at hslot
  cases hslot

end Fileloft.MemoryStore
