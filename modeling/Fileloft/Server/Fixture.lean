import Fileloft.Server.Run

/-!
# Requests for examples

Requests written with texts, an environment in which everything is granted,
and stand-ins for the third-party functions.
-/

namespace Fileloft

namespace TusRequest

def ofTexts (method : Method) (id : Option String) (headers : List (HeaderName × String))
    (body : Option Bytes) : TusRequest where
  method := method
  uploadId := id.map String.toList
  headers := headers.map fun e => (e.1, .fromStatic e.2.toList)
  body := body.map .ok

end TusRequest

/-- A clock at the epoch, free locks, and callbacks that accept. -/
def Env.permissive (uuid : Uuid) : Env where
  clock := 0
  uuid := uuid
  acquire := fun _ => .ok ()
  preCreate := fun _ => .ok ⟨none, none, none⟩
  preFinish := fun _ => .ok ()
  preTerminate := fun _ => .ok ()

/-- What the UUIDs of the examples have in common. -/
def Uuid.COMMON : Str := "1234567-89ab-4cde-8fed-0123456789ab".toList

theorem Uuid.hex_common : ∀ c ∈ Uuid.COMMON, c.isAlphanum = true ∨ c = '-' := by
  have hall : Uuid.COMMON.all (fun c => c.isAlphanum || c == '-') = true := rfl
  simpa using List.all_eq_true.mp hall

def Uuid.starting (c : Char) (hc : c.isAlphanum = true) : Uuid where
  text := c :: Uuid.COMMON
  length_eq := rfl
  hex := by
    intro d hd
    rcases List.mem_cons.mp hd with rfl | hd
    · exact .inl hc
    · exact Uuid.hex_common d hd

def Uuid.a : Uuid := .starting 'a' rfl

def Uuid.b : Uuid := .starting 'b' rfl

def Uuid.c : Uuid := .starting 'c' rfl

end Fileloft
