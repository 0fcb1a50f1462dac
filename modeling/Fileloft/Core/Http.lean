import Fileloft.Core.Info

/-!
# Requests and responses

Headers, request and response as the handlers see them. A header value is
a string of octets; only one whose octets are all visible has a text.
-/

namespace Fileloft

inductive HeaderName where
  | tusResumable
  | tusVersion
  | tusExtension
  | tusMaxSize
  | tusChecksumAlgorithm
  | uploadOffset
  | uploadLength
  | uploadDeferLength
  | uploadMetadata
  | uploadExpires
  | uploadChecksum
  | uploadConcat
  | location
  | cacheControl
  | contentType
  | contentLength
  | accessControlAllowOrigin
  | accessControlAllowMethods
  | accessControlAllowHeaders
  | accessControlExposeHeaders
  | accessControlMaxAge
  | accessControlAllowCredentials
  | host
  | xForwardedProto
  | xForwardedHost
  | other (name : Str)
  deriving DecidableEq, Repr

structure HeaderValue where
  octets : Bytes
  deriving DecidableEq, Repr

namespace HeaderValue

/-- `HeaderValue::to_str`: visible ASCII and tabs only. -/
def toStr (v : HeaderValue) : Option Str :=
  if v.octets.all fun b => (32 ≤ b && b < 127) || b == 9 then
    some (v.octets.map fun b => Char.ofNat b.toNat)
  else none

/-- `HeaderValue::from_str`: no control characters besides tab. -/
def fromStr (s : Str) : Option HeaderValue :=
  if (toUtf8 s).all fun b => (32 ≤ b && b != 127) || b == 9 then some ⟨toUtf8 s⟩ else none

/-- `HeaderValue::from_static` on ASCII text. -/
def fromStatic (s : Str) : HeaderValue := ⟨s.map fun c => UInt8.ofNat c.toNat⟩

end HeaderValue

abbrev HeaderMap := List (HeaderName × HeaderValue)

namespace HeaderMap

/-- The first value of a name. -/
def get (h : HeaderMap) (name : HeaderName) : Option HeaderValue := List.lookup name h

def containsKey (h : HeaderMap) (name : HeaderName) : Bool := (get h name).isSome

def insert (h : HeaderMap) (name : HeaderName) (v : HeaderValue) : HeaderMap :=
  h.filter (fun e => e.1 != name) ++ [(name, v)]

def extend (h extra : HeaderMap) : HeaderMap := extra.foldl (fun acc e => insert acc e.1 e.2) h

/-- `get(name).and_then(|v| v.to_str().ok())`. -/
def getStr (h : HeaderMap) (name : HeaderName) : Option Str := (get h name).bind HeaderValue.toStr

/-- The header is set, and to nothing else. -/
def Sets (h : HeaderMap) (name : HeaderName) (v : HeaderValue) : Prop :=
  (name, v) ∈ h ∧ ∀ e ∈ h, e.1 = name → e.2 = v

theorem mem_insert {h : HeaderMap} {name : HeaderName} {v : HeaderValue}
    {e : HeaderName × HeaderValue} :
    e ∈ insert h name v ↔ e ∈ h ∧ e.1 ≠ name ∨ e = (name, v) := by
  simp [insert]

theorem sets_insert (h : HeaderMap) (name : HeaderName) (v : HeaderValue) :
    (insert h name v).Sets name v := by
  refine ⟨mem_insert.mpr (.inr rfl), fun e he hname => ?_⟩
  rcases mem_insert.mp he with ⟨-, hne⟩ | rfl
  · exact absurd hname hne
  · rfl

theorem Sets.insert {h : HeaderMap} {name other : HeaderName} {v w : HeaderValue}
    (hset : h.Sets name v) (hne : name ≠ other) : (insert h other w).Sets name v := by
  refine ⟨mem_insert.mpr (.inl ⟨hset.1, hne⟩), fun e he hname => ?_⟩
  rcases mem_insert.mp he with ⟨he, -⟩ | rfl
  · exact hset.2 e he hname
  · exact absurd hname.symm hne

theorem get_insert_self (h : HeaderMap) (name : HeaderName) (v : HeaderValue) :
    get (insert h name v) name = some v := by
  have hnone : List.lookup name (h.filter fun e => e.1 != name) = none := by
    rw [List.lookup_eq_none_iff]
    intro e he
    have hne := (List.mem_filter.mp he).2
    simp only [bne_iff_ne, ne_eq] at hne
    exact bne_iff_ne.mpr (Ne.symm hne)
  rw [get, insert, List.lookup_append, hnone]
  simp

theorem get_insert_of_ne {name other : HeaderName} (hne : name ≠ other) (h : HeaderMap)
    (v : HeaderValue) : get (insert h other v) name = get h name := by
  have hkept : List.lookup name (h.filter fun e => e.1 != other) = List.lookup name h := by
    induction h with
    | nil => rfl
    | cons e h ih =>
        by_cases he : e.1 = other
        · have hother : (name == e.1) = false := by simp [he, hne]
          rw [List.filter_cons_of_neg (by simp [he]), ih, List.lookup_cons, hother]
        · rw [List.filter_cons_of_pos (by simpa using he), List.lookup_cons, List.lookup_cons, ih]
  have hlast : List.lookup name [(other, v)] = none := by
    rw [List.lookup_cons, beq_eq_false_iff_ne.mpr hne]
    rfl
  rw [get, insert, List.lookup_append, hkept, hlast, Option.or_none]
  rfl

/-- A header that is set has its value, whatever was there before. -/
theorem Sets.get_extend {extra : HeaderMap} {name : HeaderName} {v : HeaderValue}
    (hset : extra.Sets name v) (h : HeaderMap) : get (extend h extra) name = some v := by
  have hrest {extra : HeaderMap} (hnone : ∀ e ∈ extra, e.1 ≠ name) (h : HeaderMap) :
      get (extend h extra) name = get h name := by
    induction extra generalizing h with
    | nil => rfl
    | cons e extra ih =>
        obtain ⟨he, hnone⟩ := List.forall_mem_cons.mp hnone
        exact (ih hnone _).trans (get_insert_of_ne he.symm h e.2)
  obtain ⟨hmem, honly⟩ := hset
  induction extra generalizing h with
  | nil => cases hmem
  | cons e extra ih =>
      obtain ⟨he, honly⟩ := List.forall_mem_cons.mp honly
      change HeaderMap.get (extend (HeaderMap.insert h e.1 e.2) extra) name = some v
      by_cases hlater : (name, v) ∈ extra
      · exact ih _ hlater honly
      · have hfirst : (name, v) = e := (List.mem_cons.mp hmem).resolve_right hlater
        have hnone : ∀ e' ∈ extra, e'.1 ≠ name := by
          intro e' he' hname
          apply hlater
          rw [← hname, ← honly e' he' hname]
          exact he'
        rw [hrest hnone, ← hfirst]
        exact get_insert_self h name v

end HeaderMap

inductive Method where
  | options
  | head
  | get
  | post
  | patch
  | delete
  | other (name : Str)
  deriving DecidableEq, Repr

/-- What reading a body stream to its end gives. -/
abbrev Reader := Except IoError Bytes

structure TusRequest where
  method : Method
  /-- Taken from the URL path by the framework router. -/
  uploadId : Option Str
  headers : HeaderMap
  body : Option Reader

inductive TusBody where
  | bytes (b : Bytes)
  /-- A streamed download and the bytes it yields. -/
  | reader (content : Bytes)
  deriving DecidableEq, Repr

structure TusResponse where
  status : ℕ
  headers : HeaderMap
  body : TusBody
  deriving DecidableEq, Repr

end Fileloft
