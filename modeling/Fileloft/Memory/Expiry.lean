import Fileloft.Memory.Checksum
import Fileloft.Server.Expiry

/-!
# Expired uploads over the in-memory store

Which requests serve or copy the bytes of an upload after its expiry, over
runs in which the clock does not go back.
-/

namespace Fileloft.MemoryStore

open Handler Post

section Request

variable {h : TusHandler} {x : Exchange backend} {w : World MemoryStore} {id : UploadId}

theorem ids_of_parts {st : MemoryStore} {ids : List UploadId} {infos : List UploadInfo}
    (hkeyed : Keyed st) (hparts : List.Forall₂ (IsPart interp st) ids infos) :
    infos.map UploadInfo.id = ids := by
  induction hparts with
  | nil => rfl
  | cons hpart _ ih =>
      rw [List.map_cons, ih, id_of_getInfo hkeyed hpart.stored]

/-- A final upload is copied from the partials it names, if they are all
there and complete. -/
theorem mem_copied {p : Parsed} {info : UploadInfo} (hkeyed : Keyed w.store)
    (hp : Prepared h x.req p info) :
    id ∈ copied interp h p info (Function.update w.store info.id (some ⟨info, []⟩)) ↔
      p.isFinal = true ∧ Ready w.store p info ∧ id ∈ info.partialUploads := by
  unfold copied
  cases hfinal : p.isFinal with
  | false => simp
  | true =>
      have hself := hp.not_isPartial
      have hready := @ready_iff w.store p info hself hfinal
      simp only [hp.concatenation hfinal, Bool.and_self, if_true, true_and]
      cases hfetched : fetched interp (Function.update w.store info.id (some ⟨info, []⟩))
        info.partialUploads with
      | error e =>
          refine iff_of_false (by simp) ?_
          rintro ⟨hready', -⟩
          obtain ⟨infos, hparts⟩ := hready.mp hready'
          rw [fetched_eq_ok.mpr hparts] at hfetched
          cases hfetched
      | ok infos =>
          have hparts := fetched_eq_ok.mp hfetched
          have hready' := hready.mpr ⟨infos, hparts⟩
          have hjoining := joining_ready hkeyed hself hp.concatenation hready' (h := h)
          simp only [joining, hfinal, hp.concatenation hfinal, Bool.and_self, if_true, hfetched]
            at hjoining
          have hkeyed' : Keyed (Function.update w.store info.id (some ⟨info, []⟩)) :=
            hkeyed.update rfl
          simp only [hjoining, bytesOf, ids_of_parts hkeyed' hparts]
          exact ⟨fun hid => ⟨hready', hid⟩, fun hid => hid.2⟩

/-- The upload is there, and expired at the clock of the request. -/
def Overdue (w : World MemoryStore) (x : Exchange backend) (id : UploadId) : Prop :=
  ∃ entry, w.store id = some entry ∧ x.env.unexpired entry.info.expiresAt = false

/-- A final upload that gets as far as joining is made of partials that have
not expired. -/
def Timely (h : TusHandler) (w : World MemoryStore) (x : Exchange backend) : Prop :=
  x.req.method = .post → ∀ p info, prepare h x.env x.req = .ok (p, info) → p.isFinal = true →
    Ready w.store p info → ∀ i ∈ info.partialUploads, ¬ Overdue w x i

theorem handedOut_other (hpost : x.req.method ≠ .post) (hget : x.req.method ≠ .get) :
    handedOut h interp x.env x.req w = [] := by
  by_cases hhead : x.req.method = .head
  · exact Head.handedOut hhead
  by_cases hpatch : x.req.method = .patch
  · apply handedOut_eq_nil (C := fun o => ∃ id, Fileloft.Appends id o)
    · rw [TusHandler.dispatch, hpatch]
      exact Patch.makes fun _ id _ _ ho => ⟨id, ho⟩
    · rintro o ⟨id, ho⟩ a
      exact ho.bytesOf a
  · apply handedOut_eq_nil (C := fun o => ∃ id, Deletes id o)
    · unfold TusHandler.dispatch
      cases hmethod : x.req.method with
      | options => exact Options.makes
      | delete => exact Delete.makes fun id _ _ ho => ⟨id, ho⟩
      | other _ => trivial
      | head => exact absurd hmethod hhead
      | get => exact absurd hmethod hget
      | post => exact absurd hmethod hpost
      | patch => exact absurd hmethod hpatch
    · rintro o ⟨id, ho⟩ a
      exact ho.bytesOf a

/-- Only a final upload of expired partials hands out expired bytes. -/
theorem overdue_withheld_iff (hkeyed : Keyed w.store) :
    (∀ id, Overdue w x id → id ∉ handedOut h interp x.env x.req w) ↔ Timely h w x := by
  by_cases hpost : x.req.method = .post
  · obtain ⟨herror, hok⟩ := @handedOut_post _ interp h x.env x.req w pureReads hpost
    constructor
    · intro hwithheld _ p info hprepare hfinal hready i hi hoverdue
      apply hwithheld i hoverdue
      rw [hok p info _ hprepare rfl]
      exact (mem_copied hkeyed (prepare_ok hprepare)).mpr ⟨hfinal, hready, hi⟩
    · intro htimely id hoverdue hid
      rcases hprepare : prepare h x.env x.req with e | ⟨p, info⟩
      · rw [herror e hprepare] at hid
        cases hid
      · rw [hok p info _ hprepare rfl] at hid
        obtain ⟨hfinal, hready, hmem⟩ := (mem_copied hkeyed (prepare_ok hprepare)).mp hid
        exact htimely hpost p info hprepare hfinal hready id hmem hoverdue
  · refine iff_of_true ?_ fun hmethod => absurd hmethod hpost
    rintro id ⟨entry, hentry, hexpired⟩ hid
    by_cases hget : x.req.method = .get
    · obtain ⟨info, hinfo, hunexpired⟩ := Get.unexpired_of_mem pureReads hget hid
      obtain rfl : entry.info = info := by simpa [interp, getInfo, hentry] using hinfo
      rw [hexpired] at hunexpired
      cases hunexpired
    · rw [handedOut_other hpost hget] at hid
      cases hid

end Request

section Run

variable {h : TusHandler}

/-- The world in which the request after `front` is served. -/
def before (h : TusHandler) (front : List (Exchange backend)) : World MemoryStore :=
  backend.serveAll h front backend.initial

/-- The clock has passed the expiry of the upload, in `front` or with `x`. -/
def Lapsed (h : TusHandler) (front : List (Exchange backend)) (x : Exchange backend)
    (id : UploadId) : Prop :=
  ∃ entry t, (before h front).store id = some entry ∧ entry.info.expiresAt = some t ∧
    ∃ y ∈ front ++ [x], t < y.env.clock

/-- In the run of `xs`, no request that satisfies `C` serves or copies an
upload once the clock has passed its expiry. -/
def Withheld (h : TusHandler) (C : World MemoryStore → Exchange backend → Prop)
    (xs : List (Exchange backend)) : Prop :=
  ∀ front x back, xs = front ++ x :: back → C (before h front) x →
    ∀ id, Lapsed h front x id → id ∉ handedOut h interp x.env x.req (before h front)

/-- The request is answered with success. -/
def Succeeds (h : TusHandler) (w : World MemoryStore) (x : Exchange backend) : Prop :=
  ∃ resp, (backend.serve h x w).1 = some resp ∧ resp.status < 300

theorem unexpired_eq_false {env : Env} {expiresAt : Option DateTime} :
    env.unexpired expiresAt = false ↔ ∃ t, expiresAt = some t ∧ t < env.clock := by
  cases expiresAt <;> simp [Env.unexpired]

/-- While the clock does not go back, what it has passed it is past. -/
theorem lapsed_iff {front : List (Exchange backend)} {x : Exchange backend} {id : UploadId}
    (hclock : ((front ++ [x]).map fun x => x.env.clock).Pairwise (· ≤ ·)) :
    Lapsed h front x id ↔ Overdue (before h front) x id := by
  constructor
  · rintro ⟨entry, t, hentry, hexpires, y, hy, hlt⟩
    refine ⟨entry, hentry, unexpired_eq_false.mpr ⟨t, hexpires, ?_⟩⟩
    rcases List.mem_append.mp hy with hy | hy
    · rw [List.map_append, List.pairwise_append] at hclock
      have hle := hclock.2.2 y.env.clock (List.mem_map_of_mem hy) x.env.clock (by simp)
      exact hlt.trans_le hle
    · rwa [List.mem_singleton.mp hy] at hlt
  · rintro ⟨entry, hentry, hexpired⟩
    obtain ⟨t, hexpires, hlt⟩ := unexpired_eq_false.mp hexpired
    exact ⟨entry, t, hentry, hexpires, x, by simp, hlt⟩

theorem withheld_iff {C : World MemoryStore → Exchange backend → Prop}
    {xs : List (Exchange backend)} (hclock : (xs.map fun x => x.env.clock).Pairwise (· ≤ ·)) :
    Withheld h C xs ↔ ∀ front x back, xs = front ++ x :: back → C (before h front) x →
      Timely h (before h front) x := by
  refine forall_congr' fun front => forall_congr' fun x => forall_congr' fun back =>
    forall_congr' fun hxs => forall_congr' fun _ => ?_
  have hreachable : backend.Reachable h (before h front) :=
    Backend.Reachable.initial.serveAll front
  have hkeyed : Keyed (before h front).store := keyed_of_reachable hreachable
  rw [← overdue_withheld_iff hkeyed]
  have hsorted : ((front ++ [x]).map fun x => x.env.clock).Pairwise (· ≤ ·) := by
    rw [hxs, List.append_cons, List.map_append] at hclock
    exact (List.pairwise_append.mp hclock).1
  exact forall_congr' fun id => by rw [lapsed_iff hsorted]

/-- No request hands out expired bytes exactly when every final upload that
gets as far as joining is timely, and no request that is answered with success
does exactly when every final upload that nothing stops is. -/
theorem expired_withheld_iff {xs : List (Exchange backend)}
    (hclock : (xs.map fun x => x.env.clock).Pairwise (· ≤ ·)) :
    (Withheld h (fun _ _ => True) xs ↔ ∀ front x back, xs = front ++ x :: back →
      Timely h (before h front) x) ∧
    (Withheld h (Succeeds h) xs ↔ ∀ front x back, xs = front ++ x :: back →
      PassesPost h x.env x.req (before h front).store → Timely h (before h front) x) := by
  rw [withheld_iff hclock, withheld_iff hclock]
  constructor
  · simp
  · refine forall_congr' fun front => forall_congr' fun x => forall_congr' fun back =>
      forall_congr' fun _ => ?_
    have hreachable : backend.Reachable h (before h front) :=
      Backend.Reachable.initial.serveAll front
    by_cases hpost : x.req.method = .post
    · rw [Succeeds, post_success_iff hreachable hpost]
    · have htimely : Timely h (before h front) x := fun hmethod => absurd hmethod hpost
      exact iff_of_true (fun _ => htimely) fun _ => htimely

end Run

namespace LateFinal

def handler : TusHandler where
  config :=
    { extensions := { concatenation := true, expiration := true, expirationTtl := some 10 }
      enableDownload := true }
  hasLocker := true
  lib := .fixed

/-- A partial of one byte, which expires at 10. -/
def part : Exchange backend where
  req := .ofTexts .post none [(.tusResumable, "1.0.0"), (.uploadLength, "1"),
    (.uploadConcat, "partial"), (.contentType, "application/offset+octet-stream")] (some [97])
  env := .permissive .a
  choice := ()

/-- The final upload of it, at `clock`. -/
def final (clock : DateTime) : Exchange backend where
  req := .ofTexts .post none [(.tusResumable, "1.0.0"),
    (.uploadConcat, "final;/files/a1234567-89ab-4cde-8fed-0123456789ab")] none
  env := { Env.permissive .b with clock }
  choice := ()

def partId : UploadId := .new part.env.uuid

theorem evaluated :
    ((before handler [part]).store partId).map (fun entry => entry.info.expiresAt) =
      some (some 10) ∧
    (backend.serve handler (final 11) (before handler [part])).1.map TusResponse.status =
      some 201 ∧
    handedOut handler interp (final 11).env (final 11).req (before handler [part]) = [partId] := by
  decide +kernel

end LateFinal

open LateFinal in
theorem expired_withheld_iff_final :
    (Withheld handler (fun _ _ => True) [part, final 10] ↔
      ∀ front x back, [part, final 10] = front ++ x :: back →
        Timely handler (before handler front) x) ∧
    (Withheld handler (Succeeds handler) [part, final 10] ↔
      ∀ front x back, [part, final 10] = front ++ x :: back →
        PassesPost handler x.env x.req (before handler front).store →
          Timely handler (before handler front) x) :=
  expired_withheld_iff (by decide)

open LateFinal in
/-- A final upload is made of a partial that has expired, and answered. -/
theorem expired_partial_is_copied :
    ([part, final 11].map fun x => x.env.clock).Pairwise (· ≤ ·) ∧
      Succeeds handler (before handler [part]) (final 11) ∧
      Lapsed handler [part] (final 11) partId ∧
      partId ∈ handedOut handler interp (final 11).env (final 11).req (before handler [part]) ∧
      ¬ Withheld handler (Succeeds handler) [part, final 11] := by
  obtain ⟨hexpires, hstatus, hhanded⟩ := evaluated
  have hsucceeds : Succeeds handler (before handler [part]) (final 11) := by
    obtain ⟨resp, hresp, hcreated⟩ := Option.map_eq_some_iff.mp hstatus
    exact ⟨resp, hresp, by omega⟩
  have hlapsed : Lapsed handler [part] (final 11) partId := by
    obtain ⟨entry, hentry, ht⟩ := Option.map_eq_some_iff.mp hexpires
    exact ⟨entry, 10, hentry, ht, final 11, by simp, by decide⟩
  have hmem : partId ∈ handedOut handler interp (final 11).env (final 11).req
      (before handler [part]) := by
    rw [hhanded]
    exact List.mem_singleton_self partId
  refine ⟨by decide, hsucceeds, hlapsed, hmem, fun hall => ?_⟩
  exact hall [part] (final 11) [] rfl hsucceeds partId hlapsed hmem

end Fileloft.MemoryStore
