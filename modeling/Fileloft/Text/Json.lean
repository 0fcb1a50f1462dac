import Fileloft.Text.Search
import Fileloft.Text.Decimal

/-!
# Compact JSON, written and read back

A format prints values and reads them from the front of a text. Numbers do
not say where they end, so reading back is promised before a text that does
not go on with a digit.
-/

namespace Text

/-- The text does not go on with a digit. -/
def Stops (rest : List Char) : Prop := ∀ c ∈ rest.head?, c.isDigit = false

structure Format (α : Type) where
  print : α → List Char
  parse : List Char → Option (α × List Char)
  parse_print : ∀ a rest, Stops rest → parse (print a ++ rest) = some (a, rest)

namespace Format

variable {α β : Type}

/-- All values begin with the character `c`. -/
def Opens (f : Format α) (c : Char) : Prop := ∀ a, ∃ cs, f.print a = c :: cs

theorem stops_cons {c : Char} {rest : List Char} (hc : c.isDigit = false) : Stops (c :: rest) := by
  rintro _ ⟨⟩
  exact hc

theorem strip_append (pat rest : List Char) : strip pat (pat ++ rest) = some rest :=
  strip_eq_some_iff.mpr rfl

/-- A format for what some values of another one stand for. -/
def ofSome (f : Format α) (read : α → Option β) (write : β → α)
    (hread : ∀ b, read (write b) = some b) : Format β where
  print b := f.print (write b)
  parse s := (f.parse s).bind fun (a, rest) => (read a).map fun b => (b, rest)
  parse_print b rest hrest := by simp [f.parse_print _ _ hrest, hread]

/-! ## Values -/

def bool : Format Bool where
  print b := if b then "true".toList else "false".toList
  parse s :=
    match strip "true".toList s with
    | some rest => some (true, rest)
    | none => (strip "false".toList s).map fun rest => (false, rest)
  parse_print b rest _ := by
    cases b with
    | true => simp only [if_true, strip_append]
    | false =>
        have hnot : strip "true".toList ("false".toList ++ rest) = none := by
          rw [Option.eq_none_iff_forall_ne_some]
          intro a ha
          simpa using strip_eq_some_iff.mp ha
        simp only [Bool.false_eq_true, if_false, hnot, strip_append, Option.map_some]

def number : Format ℕ where
  print := decimal
  parse s :=
    let digits := s.takeWhile Char.isDigit
    if digits = [] then none else some (Nat.ofDigitChars 10 digits 0, s.dropWhile Char.isDigit)
  parse_print n rest hrest := by
    have hdigits : ∀ c ∈ decimal n, c.isDigit = true := fun c hc => isDigit_of_mem_decimal hc
    have htake : rest.takeWhile Char.isDigit = [] := by
      cases rest with
      | nil => rfl
      | cons c rest => simp [hrest c rfl]
    have hdrop : rest.dropWhile Char.isDigit = rest := by
      cases rest with
      | nil => rfl
      | cons c rest => simp [hrest c rfl]
    simp [List.takeWhile_append_of_pos hdigits, List.dropWhile_append_of_pos hdigits, htake, hdrop,
      decimal_ne_nil, ofDigitChars_decimal]

/-- `null`, or a value that does not begin like it. -/
def orNull (f : Format α) (hf : ∀ a, ∃ c cs, f.print a = c :: cs ∧ c ≠ 'n') :
    Format (Option α) where
  print
    | none => "null".toList
    | some a => f.print a
  parse s :=
    match strip "null".toList s with
    | some rest => some (none, rest)
    | none => (f.parse s).map fun (a, rest) => (some a, rest)
  parse_print a rest hrest := by
    cases a with
    | none => simp only [strip_append]
    | some a =>
        have hnot : strip "null".toList (f.print a ++ rest) = none := by
          rw [Option.eq_none_iff_forall_ne_some]
          intro b hb
          obtain ⟨c, cs, hprint, hc⟩ := hf a
          have heq := strip_eq_some_iff.mp hb
          rw [hprint] at heq
          exact hc (List.cons.inj heq).1
        simp only [hnot, f.parse_print a rest hrest, Option.map_some]

/-! ## Strings -/

/-- The short escapes. -/
def ESCAPES : List (Char × Char) :=
  [('"', '"'), ('\\', '\\'), ('\x08', 'b'), ('\x0c', 'f'), ('\n', 'n'), ('\r', 'r'), ('\t', 't')]

def hexDigit (n : ℕ) : Char := (Nat.toDigits 16 n).headD '0'

def escape (c : Char) : List Char :=
  match ESCAPES.lookup c with
  | some e => ['\\', e]
  | none =>
    if c.toNat < 32 then ['\\', 'u', '0', '0', hexDigit (c.toNat / 16), hexDigit (c.toNat % 16)]
    else [c]

/-- The control character a long escape stands for. -/
def unescapeHex (hi lo : Char) : Option Char :=
  ((List.range 32).find? fun n => hexDigit (n / 16) = hi ∧ hexDigit (n % 16) = lo).map Char.ofNat

/-- The character an escape stands for, and what follows the escape. -/
def unescape : List Char → Option (Char × List Char)
  | 'u' :: '0' :: '0' :: hi :: lo :: rest => (unescapeHex hi lo).map fun c => (c, rest)
  | e :: rest => (ESCAPES.find? fun p => p.2 = e).map fun p => (p.1, rest)
  | [] => none

/-- Read up to the closing quote. -/
def unquote : ℕ → List Char → Option (List Char × List Char)
  | 0, _ => none
  | _ + 1, [] => none
  | fuel + 1, c :: rest =>
    if c = '"' then some ([], rest)
    else if c = '\\' then
      (unescape rest).bind fun (d, rest) => (unquote fuel rest).map fun (s, rest) => (d :: s, rest)
    else (unquote fuel rest).map fun (s, rest) => (c :: s, rest)

theorem unescapeHex_control {c : Char} (hc : c.toNat < 32) :
    unescapeHex (hexDigit (c.toNat / 16)) (hexDigit (c.toNat % 16)) = some c := by
  have hall : ∀ n < 32, unescapeHex (hexDigit (n / 16)) (hexDigit (n % 16)) =
      some (Char.ofNat n) := by
    decide
  rw [hall _ hc, Char.ofNat_toNat]

theorem unescape_short {c e : Char} (h : ESCAPES.lookup c = some e) (rest : List Char) :
    unescape (e :: rest) = some (c, rest) := by
  have hmem : (c, e) ∈ ESCAPES := by
    obtain ⟨l, l', heq, -⟩ := List.lookup_eq_some_iff.mp h
    simp [heq]
  simp only [ESCAPES, List.mem_cons, Prod.mk.injEq, List.not_mem_nil, or_false] at hmem
  rcases hmem with ⟨rfl, rfl⟩ | ⟨rfl, rfl⟩ | ⟨rfl, rfl⟩ | ⟨rfl, rfl⟩ | ⟨rfl, rfl⟩ | ⟨rfl, rfl⟩ |
    ⟨rfl, rfl⟩ <;> rfl

theorem unquote_escape (fuel : ℕ) (c : Char) (rest : List Char) :
    unquote (fuel + 1) (escape c ++ rest) =
      (unquote fuel rest).map fun (s, rest) => (c :: s, rest) := by
  have hslash : ('\\' : Char) ≠ '"' := by decide
  unfold escape
  split
  · next e he =>
      simp only [List.cons_append, List.nil_append, unquote, if_neg hslash, if_true,
        unescape_short he, Option.bind_some]
  · next hnone =>
      split
      · next hc =>
          simp only [List.cons_append, List.nil_append, unquote, if_neg hslash, if_true, unescape,
            unescapeHex_control hc, Option.map_some, Option.bind_some]
      · have hquote : c ≠ '"' := by
          rintro rfl
          cases hnone
        have hback : c ≠ '\\' := by
          rintro rfl
          cases hnone
        simp [unquote, hquote, hback]

theorem unquote_escapes (s rest : List Char) (fuel : ℕ) (hfuel : s.length < fuel) :
    unquote fuel (s.flatMap escape ++ '"' :: rest) = some (s, rest) := by
  induction s generalizing fuel with
  | nil =>
      obtain ⟨fuel, rfl⟩ : ∃ n, fuel = n + 1 := ⟨fuel - 1, by simp at hfuel; omega⟩
      simp [unquote]
  | cons c s ih =>
      obtain ⟨fuel, rfl⟩ : ∃ n, fuel = n + 1 := ⟨fuel - 1, by simp at hfuel; omega⟩
      rw [List.flatMap_cons, List.append_assoc, unquote_escape,
        ih fuel (by simpa using hfuel), Option.map_some]

theorem length_le_escapes (s : List Char) : s.length ≤ (s.flatMap escape).length := by
  induction s with
  | nil => simp
  | cons c s ih =>
      have hpos : 0 < (escape c).length := by
        unfold escape
        split
        · simp
        · split <;> simp
      simp only [List.flatMap_cons, List.length_append, List.length_cons]
      omega

def string : Format (List Char) where
  print s := '"' :: (s.flatMap escape ++ ['"'])
  parse
    | '"' :: rest => unquote rest.length rest
    | _ => none
  parse_print s rest _ := by
    have hle := length_le_escapes s
    have hcut : '"' :: (s.flatMap escape ++ ['"']) ++ rest =
        '"' :: (s.flatMap escape ++ '"' :: rest) := by simp
    rw [hcut]
    refine unquote_escapes s rest _ ?_
    rw [List.length_append, List.length_cons]
    omega

/-! ## Arrays and maps -/

/-- The rest of a comma-separated list after its first item. -/
def tail (f : Format α) (close : Char) : List α → List Char
  | [] => [close]
  | a :: as => ',' :: f.print a ++ tail f close as

/-- Read items up to the closing bracket, which is not a comma. -/
def items (f : Format α) (close : Char) : ℕ → List Char → Option (List α × List Char)
  | 0, _ => none
  | fuel + 1, s =>
    match f.parse s with
    | some (a, c :: rest) =>
      if c = close then some ([a], rest)
      else if c = ',' then (items f close fuel rest).map fun (as, rest) => (a :: as, rest)
      else none
    | _ => none

theorem stops_tail {f : Format α} {close : Char} (hclose : close.isDigit = false) (as : List α)
    (rest : List Char) : Stops (f.tail close as ++ rest) := by
  cases as with
  | nil => exact stops_cons hclose
  | cons a as => exact stops_cons (by decide)

theorem items_tail {f : Format α} {close : Char} (hclose : close.isDigit = false)
    (hcomma : close ≠ ',') (a : α) (as : List α) (rest : List Char) (fuel : ℕ)
    (hfuel : as.length < fuel) :
    f.items close fuel (f.print a ++ (f.tail close as ++ rest)) = some (a :: as, rest) := by
  induction as generalizing a fuel with
  | nil =>
      obtain ⟨fuel, rfl⟩ : ∃ n, fuel = n + 1 := ⟨fuel - 1, by simp at hfuel; omega⟩
      rw [items, f.parse_print _ _ (stops_tail hclose _ _)]
      simp [tail]
  | cons b as ih =>
      obtain ⟨fuel, rfl⟩ : ∃ n, fuel = n + 1 := ⟨fuel - 1, by simp at hfuel; omega⟩
      rw [items, f.parse_print _ _ (stops_tail hclose _ _)]
      simp only [tail, List.cons_append, List.append_assoc, hcomma.symm, if_false, if_true,
        ih b fuel (by simpa using hfuel), Option.map_some]

theorem length_le_tail (f : Format α) (close : Char) (as : List α) :
    as.length ≤ (f.tail close as).length := by
  induction as with
  | nil => simp
  | cons a as ih =>
      simp only [tail, List.length_cons, List.length_append]
      omega

/-- Items between brackets, none of which begins with the closing one. -/
def list (f : Format α) (opening close : Char) {c : Char} (hf : f.Opens c) (hne : c ≠ close)
    (hclose : close.isDigit = false) (hcomma : close ≠ ',') : Format (List α) where
  print
    | [] => [opening, close]
    | a :: as => opening :: (f.print a ++ f.tail close as)
  parse
    | [] => none
    | [_] => none
    | o :: d :: rest =>
      if o ≠ opening then none
      else if d = close then some ([], rest)
      else f.items close (d :: rest).length (d :: rest)
  parse_print as rest _ := by
    cases as with
    | nil => simp
    | cons a as =>
        obtain ⟨cs, hprint⟩ := hf a
        have hle := length_le_tail f close as
        have hitems := items_tail (f := f) hclose hcomma a as rest
          (f.print a ++ (f.tail close as ++ rest)).length (by simp [hprint]; omega)
        simp only [hprint, List.cons_append, List.append_assoc] at hitems ⊢
        simp only [ne_eq, not_true_eq_false, if_false, hne, hitems]

/-- One entry of a map. -/
def entry (f : Format α) : Format (List Char × α) where
  print e := string.print e.1 ++ ':' :: f.print e.2
  parse s :=
    match string.parse s with
    | some (k, ':' :: rest) => (f.parse rest).map fun (a, rest) => ((k, a), rest)
    | _ => none
  parse_print e rest hrest := by
    rw [List.append_assoc, List.cons_append, string.parse_print _ _ (stops_cons (by decide))]
    simp [f.parse_print _ _ hrest]

theorem opens_entry (f : Format α) : (entry f).Opens '"' := fun _ => ⟨_, rfl⟩

/-! ## Records -/

/-- The rest of a record after some of its fields. -/
structure Fields (α : Type) extends Format α where
  stops : ∀ a rest, Stops (print a ++ rest)

def close : Fields Unit where
  print _ := ['}']
  parse s := (strip ['}'] s).map fun rest => ((), rest)
  parse_print _ rest _ := by rw [strip_append, Option.map_some]
  stops _ _ := stops_cons (by decide)

/-- One field, after an opening brace or a comma. -/
def field (before : Char) (hbefore : before.isDigit = false) (name : List Char) (f : Format α)
    (g : Fields β) : Fields (α × β) where
  print p := before :: (string.print name ++ ':' :: (f.print p.1 ++ g.print p.2))
  parse s :=
    (strip (before :: (string.print name ++ [':'])) s).bind fun rest =>
      (f.parse rest).bind fun (a, rest) => (g.parse rest).map fun (b, rest) => ((a, b), rest)
  parse_print p rest hrest := by
    have hstrip : strip (before :: (string.print name ++ [':']))
        (before :: (string.print name ++ ':' :: (f.print p.1 ++ g.print p.2)) ++ rest) =
          some (f.print p.1 ++ (g.print p.2 ++ rest)) := by
      rw [strip_eq_some_iff]
      simp
    rw [hstrip, Option.bind_some, f.parse_print _ _ (g.stops p.2 rest)]
    simp only [Option.bind_some, g.parse_print _ _ hrest, Option.map_some]
  stops _ _ := stops_cons hbefore

end Format

end Text
