import Fileloft.Server.Fixture
import Fileloft.Server.Post

/-!
# The standalone server

Its configuration comes from environment variables. The time to live it takes
from there meets two other ranges when an upload gets its expiry.
-/

namespace Fileloft.Standalone

open Handler Post

/-- The environment variables that are set to a text. -/
abbrev Vars : Type := Str → Option Str

variable (vars : Vars)

def envOr (name fallback : Str) : Str := (vars name).getD fallback

def envOpt (name : Str) : Option Str :=
  (vars name).filter fun s => Text.trimBoth Text.isWhitespace s ≠ []

def envTruthy (name : Str) : Bool :=
  match envOpt vars name with
  | some v => v == "1".toList || v.map Char.toLower == "true".toList
  | none => false

def parseCommaHeaders (raw : Option Str) : List Str :=
  match raw with
  | some s => ((s.splitOn ',').map (Text.trimBoth Text.isWhitespace)).filter (· ≠ [])
  | none => []

/-- A number that is taken over only when it parses. -/
def envNumber (bound : ℕ) (name : Str) (fallback : ℕ) : ℕ :=
  ((envOpt vars name).bind (Text.parseUInt bound)).getD fallback

/-- `Duration::from_secs`, in nanoseconds. -/
def fromSecs (secs : ℕ) : ℕ := secs * 10 ^ 9

/-- The one number that must parse if it is set. -/
def expirationTtl : Except Str (Option ℕ) :=
  match envOpt vars "FILELOFT_EXPIRATION_TTL".toList with
  | some s =>
    match Text.parseUInt U64_BOUND s with
    | some secs => .ok (some (fromSecs secs))
    | none => .error "invalid FILELOFT_EXPIRATION_TTL (expect seconds as u64)".toList
  | none => .ok none

def buildConfig : Except Str Config := do
  let ttl ← expirationTtl vars
  return {
    basePath := envOr vars "FILELOFT_BASE_PATH".toList "/files/".toList
    baseUrl := envOpt vars "FILELOFT_BASE_URL".toList
    maxSize := envNumber vars U64_BOUND "FILELOFT_MAX_SIZE".toList 0
    extensions := {
      termination := !envTruthy vars "FILELOFT_DISABLE_TERMINATION".toList
      concatenation := envTruthy vars "FILELOFT_ENABLE_CONCATENATION".toList
      cleanupConcatPartials := envTruthy vars "FILELOFT_ENABLE_CLEANUP_CONCAT_PARTIALS".toList
      expiration := envTruthy vars "FILELOFT_ENABLE_EXPIRATION".toList
      expirationTtl := ttl
      checksum := !envTruthy vars "FILELOFT_DISABLE_CHECKSUM".toList
      creation := !envTruthy vars "FILELOFT_DISABLE_CREATION".toList
      creationWithUpload := !envTruthy vars "FILELOFT_DISABLE_CREATION_WITH_UPLOAD".toList
      creationDeferLength := !envTruthy vars "FILELOFT_DISABLE_DEFER_LENGTH".toList }
    cors := {
      enabled := !envTruthy vars "FILELOFT_DISABLE_CORS".toList
      allowOrigin := envOr vars "FILELOFT_CORS_ALLOW_ORIGIN".toList "*".toList
      allowCredentials := envTruthy vars "FILELOFT_CORS_ALLOW_CREDENTIALS".toList
      extraAllowHeaders := parseCommaHeaders (envOpt vars "FILELOFT_CORS_ALLOW_HEADERS".toList)
      extraExposeHeaders := parseCommaHeaders (envOpt vars "FILELOFT_CORS_EXPOSE_HEADERS".toList)
      maxAge := envNumber vars U64_BOUND "FILELOFT_CORS_MAX_AGE".toList 86400 }
    trustForwardedHeaders := envTruthy vars "FILELOFT_BEHIND_PROXY".toList
    enableDownload := envTruthy vars "FILELOFT_ENABLE_DOWNLOAD".toList }

/-! ## The expiry of a new upload -/

/-- The first representable date, -262143-01-01T00:00:00Z. -/
def MIN_UTC : DateTime := -8334601228800 * 10 ^ 9

def Representable (t : DateTime) : Prop := MIN_UTC ≤ t ∧ t ≤ MAX_UTC

/-- The milliseconds of an `i64`. -/
def MAX_MILLIS : ℕ := 2 ^ 63 - 1

/-- A representable expiry or an error to answer. -/
inductive Settles : Except Halt (Option DateTime) → Prop
  | expires (t : DateTime) (ht : Representable t) : Settles (.ok (some t))
  | refused (e : TusError) : Settles (.error (.error e))

variable {vars} {config : Config} {text : Str} {secs : ℕ}

/-- Every number of seconds is accepted. -/
theorem expiration_of_buildConfig (hconfig : buildConfig vars = .ok config)
    (hset : envOpt vars "FILELOFT_EXPIRATION_TTL".toList = some text)
    (hsecs : Text.parseUInt U64_BOUND text = some secs) :
    config.extensions.expiration = envTruthy vars "FILELOFT_ENABLE_EXPIRATION".toList ∧
      config.extensions.expirationTtl = some (fromSecs secs) := by
  have httl : expirationTtl vars = .ok (some (fromSecs secs)) := by
    simp only [expirationTtl, hset, hsecs]
  rw [buildConfig, httl] at hconfig
  obtain rfl := Except.ok.inj hconfig
  exact ⟨rfl, rfl⟩

theorem durationFromStd_fromSecs : durationFromStd (fromSecs secs) =
    if secs * 1000 ≤ MAX_MILLIS then .ok (fromSecs secs)
    else .error (.internal "Source duration value is out of range for the target type".toList) := by
  have hrange : fromSecs secs ≤ MAX_DURATION ↔ secs * 1000 ≤ MAX_MILLIS := by
    rw [fromSecs, MAX_DURATION, MAX_MILLIS]
    omega
  rw [durationFromStd]
  simp only [hrange]

section Expiry

variable {σ : Type} {impl : Interp StoreSig σ} {env : Env} {w : World σ} {h : TusHandler}

theorem run_expiry_fromSecs (henabled : h.config.extensions.expiration = true)
    (httl : h.config.extensions.expirationTtl = some (fromSecs secs)) :
    ((expiry h).run (handlerInterp impl env) w).1 =
      if secs * 1000 ≤ MAX_MILLIS then
        if env.clock + fromSecs secs ≤ MAX_UTC then .ok (some (env.clock + fromSecs secs))
        else .error .panic
      else .error (.error (.internal
        "Source duration value is out of range for the target type".toList)) := by
  rw [expiry, if_pos henabled, httl]
  simp only [Prog.bind_eq, run_now_bind, durationFromStd_fromSecs]
  split
  · rw [check_ok, Prog.ret_bind]
    split <;> rfl
  · rfl

/-- The expiry is settled exactly when the seconds are too many for a duration
or few enough for a date. -/
theorem expiry_settles_iff (hconfig : buildConfig vars = .ok config)
    (henabled : envTruthy vars "FILELOFT_ENABLE_EXPIRATION".toList = true)
    (hset : envOpt vars "FILELOFT_EXPIRATION_TTL".toList = some text)
    (hsecs : Text.parseUInt U64_BOUND text = some secs) (hh : h.config = config)
    (hclock : Representable env.clock) :
    Settles ((expiry h).run (handlerInterp impl env) w).1 ↔
      MAX_MILLIS < secs * 1000 ∨ env.clock + secs * 10 ^ 9 ≤ MAX_UTC := by
  obtain ⟨hexpiration, httl⟩ := expiration_of_buildConfig hconfig hset hsecs
  rw [← hh] at hexpiration httl
  rw [run_expiry_fromSecs (hexpiration.trans henabled) httl]
  have hnanos : ((fromSecs secs : ℕ) : ℤ) = secs * 10 ^ 9 := by
    rw [fromSecs]
    push_cast
    rfl
  rw [hnanos]
  split
  · next hfew =>
      rw [or_iff_right (Nat.not_lt.mpr hfew)]
      split
      · next hdate =>
          refine iff_of_true (.expires _ ⟨?_, hdate⟩) hdate
          have hpos : (0 : ℤ) ≤ secs * 10 ^ 9 :=
            Int.mul_nonneg (Int.natCast_nonneg secs) (by decide)
          exact hclock.1.trans (Int.le_add_of_nonneg_right hpos)
      · next hdate => exact iff_of_false nofun hdate
  · next hmany => exact iff_of_true (.refused _) (.inl (Nat.lt_of_not_le hmany))

end Expiry

namespace YearsToLive

/-- A server with expiration and this time to live. -/
def exported (ttl : Str) : Vars := fun name =>
  if name = "FILELOFT_ENABLE_EXPIRATION".toList then some "true".toList
  else if name = "FILELOFT_EXPIRATION_TTL".toList then some ttl
  else none

/-- About 285000 years, less than `i64::MAX` milliseconds. -/
def millennia : Str := "9000000000000".toList

def handler (config : Config) : TusHandler where
  config := config
  hasLocker := true
  lib := .fixed

def begun : World Unit := ⟨(), []⟩

def noStore : Interp StoreSig Unit := fun _ _ => (.error .gone, ())

end YearsToLive

open YearsToLive in
theorem expiry_settles_iff_hour : ∃ config, buildConfig (exported "3600".toList) = .ok config ∧
    (Settles ((expiry (handler config)).run (handlerInterp noStore (.permissive .a)) begun).1 ↔
      MAX_MILLIS < 3600 * 1000 ∨ (0 : ℤ) + 3600 * 10 ^ 9 ≤ MAX_UTC) := by
  refine ⟨_, rfl, ?_⟩
  have hclock : Representable (Env.permissive .a).clock := ⟨by decide, by decide⟩
  exact @expiry_settles_iff (exported "3600".toList) _ "3600".toList 3600 Unit noStore
    (.permissive .a) begun (handler _) rfl (by decide) rfl (by decide) rfl hclock

open YearsToLive in
/-- The seconds are accepted and fit a duration, and the date is beyond the last one. -/
theorem expiry_overflows : ∃ config, buildConfig (exported millennia) = .ok config ∧
    ((expiry (handler config)).run (handlerInterp noStore (.permissive .a)) begun).1 =
      .error .panic ∧
    ¬ Settles ((expiry (handler config)).run (handlerInterp noStore (.permissive .a)) begun).1 := by
  refine ⟨_, rfl, rfl, ?_⟩
  nofun

end Fileloft.Standalone
