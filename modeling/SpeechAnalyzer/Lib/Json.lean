/-
JSON values and the accesses a C++ program makes on them: `j[k]` on a mutable
value (which reads a missing member of an object, or any member of `null`, as
`null`, and throws on every other kind), assignment through a path of keys,
the implicit conversions, and serialisation.

Numbers are a parameter `ν`; objects are key-sorted maps (`Lib.KeyMap`), so
members come in key order.
-/
import SpeechAnalyzer.Lib.KeyMap
import SpeechAnalyzer.Lib.Text

namespace Lib

/-- The exceptions the modelled code can meet. -/
inductive Exn
  | parseError
  /-- A JSON access of the wrong kind, by its number: 302 a conversion, 305 a key, 308 an append. -/
  | typeError (id : Nat)
  | outOfRange
  | lengthError
deriving DecidableEq, Repr

theorem ok_bind {ε α β : Type} (a : α) (f : α → Except ε β) : (Except.ok a >>= f) = f a := rfl

theorem bind_eq_ok {ε α β : Type} {x : Except ε α} {f : α → Except ε β} {b : β} :
    (x >>= f) = .ok b ↔ ∃ a, x = .ok a ∧ f a = .ok b := by
  cases x with
  | error e => exact ⟨nofun, nofun⟩
  | ok a => exact ⟨fun h => ⟨a, rfl, h⟩, fun ⟨_, ha, h⟩ => Except.ok.inj ha ▸ h⟩

inductive Json (ν : Type) where
  | null
  | bool (b : Bool)
  | num (x : ν)
  | str (s : Str)
  | arr (l : List (Json ν))
  | obj (l : List (Str × Json ν))

namespace Json

variable {ν : Type}

/-- `j[k]`, read. -/
def get (k : Str) : Json ν → Except Exn (Json ν)
  | null => .ok null
  | obj l => .ok ((l.lookup k).getD null)
  | _ => .error (.typeError 305)

/-- `j[k₁][k₂]… = v`: the members on the way come into being. -/
def setAt : List Str → Json ν → Json ν → Except Exn (Json ν)
  | [], v, _ => .ok v
  | k :: ks, v, null => do
    let c ← setAt ks v null
    .ok (obj [(k, c)])
  | k :: ks, v, obj l => do
    let c ← setAt ks v ((l.lookup k).getD null)
    .ok (obj (KeyMap.put k c l))
  | _ :: _, _, _ => .error (.typeError 305)

/-- `j.push_back(x)`. -/
def pushBack (x : Json ν) : Json ν → Except Exn (Json ν)
  | null => .ok (arr [x])
  | arr l => .ok (arr (l ++ [x]))
  | _ => .error (.typeError 308)

/-- `string s = j`. -/
def toStr : Json ν → Except Exn Str
  | str s => .ok s
  | _ => .error (.typeError 302)

/-- `double x = j`. -/
def toDouble : Json ν → Except Exn ν
  | num x => .ok x
  | _ => .error (.typeError 302)

/-- `for (json x : j)`: the elements of an array, the values of an object,
nothing of `null`, and any other value once. -/
def elements : Json ν → List (Json ν)
  | null => []
  | arr l => l
  | obj l => l.map Prod.snd
  | j => [j]

/-- `j.items()`: the same with keys, positions for an array and the empty key
for a single value. -/
def items : Json ν → List (Str × Json ν)
  | null => []
  | arr l => l.mapIdx fun i x => (Nat.toDigits 10 i, x)
  | obj l => l
  | j => [([], j)]

@[simp] theorem get_null (k : Str) : (null : Json ν).get k = .ok null := rfl
@[simp] theorem get_obj (k : Str) (l : List (Str × Json ν)) :
    (obj l).get k = .ok ((l.lookup k).getD null) := rfl
@[simp] theorem toStr_str (s : Str) : (str s : Json ν).toStr = .ok s := rfl
@[simp] theorem toDouble_num (x : ν) : (num x).toDouble = .ok x := rfl

theorem toStr_eq_ok {j : Json ν} {s : Str} : j.toStr = .ok s ↔ j = .str s := by
  cases j with
  | str s' => simp
  | null => exact ⟨nofun, nofun⟩
  | bool _ => exact ⟨nofun, nofun⟩
  | num _ => exact ⟨nofun, nofun⟩
  | arr _ => exact ⟨nofun, nofun⟩
  | obj _ => exact ⟨nofun, nofun⟩

theorem toDouble_eq_ok {j : Json ν} {x : ν} : j.toDouble = .ok x ↔ j = .num x := by
  cases j with
  | num y => simp
  | null => exact ⟨nofun, nofun⟩
  | bool _ => exact ⟨nofun, nofun⟩
  | str _ => exact ⟨nofun, nofun⟩
  | arr _ => exact ⟨nofun, nofun⟩
  | obj _ => exact ⟨nofun, nofun⟩

@[simp] theorem setAt_nil (v j : Json ν) : setAt [] v j = .ok v := by cases j <;> rfl

/-! ## Serialisation -/

/-- How a serialiser writes the characters of a string: a quote and a
backslash behind a backslash, a control character as a backslash and letters
or digits, every other character as it is. -/
structure Escape where
  esc : Char → Str
  quote : esc '"' = ['\\', '"']
  backslash : esc '\\' = ['\\', '\\']
  control : ∀ c, c.toNat < 0x20 →
    (esc c).head? = some '\\' ∧ (esc c).tail ≠ [] ∧ ∀ d ∈ (esc c).tail, d.isAlphanum = true
  plain : ∀ c, 0x20 ≤ c.toNat → c ≠ '"' → c ≠ '\\' → esc c = [c]

/-- The usual escapes. -/
def Escape.json : Escape where
  esc c :=
    if c = '"' then "\\\"".toList
    else if c = '\\' then "\\\\".toList
    else if c = '\n' then "\\n".toList
    else if c = '\t' then "\\t".toList
    else if c = '\r' then "\\r".toList
    else if c = '\x08' then "\\b".toList
    else if c = '\x0c' then "\\f".toList
    else if c.toNat < 0x20 then
      '\\' :: 'u' :: '0' :: '0' :: [Nat.digitChar (c.toNat / 16), Nat.digitChar (c.toNat % 16)]
    else [c]
  quote := rfl
  backslash := rfl
  control := by
    intro c hc
    have hval : c = Char.ofNat c.toNat := (Char.ofNat_toNat c).symm
    generalize c.toNat = n at hc hval
    subst hval
    revert n
    decide +kernel
  plain := by
    intro c hc hq hb
    have hctl {d : Char} (hd : d.toNat < 0x20) : c ≠ d := fun he => by
      subst he
      omega
    rw [if_neg hq, if_neg hb, if_neg (hctl (by decide)), if_neg (hctl (by decide)), if_neg (hctl (by decide)),
      if_neg (hctl (by decide)), if_neg (hctl (by decide)), if_neg (by omega)]

/-- A serialiser: `num` writes a number. -/
structure Printer (ν : Type) extends Escape where
  num : ν → Str
  num_ne_nil : ∀ x, num x ≠ []
  num_numeral : ∀ x, IsNumeral (num x)

/-- A string, quoted. -/
def Escape.quoted (E : Escape) (s : Str) : Str := '"' :: s.flatMap E.esc ++ ['"']

mutual

/-- `j.dump()`. -/
def dump (P : Printer ν) : Json ν → Str
  | null => "null".toList
  | bool true => "true".toList
  | bool false => "false".toList
  | num x => P.num x
  | str s => P.quoted s
  | arr l => '[' :: dumpElements P l ++ [']']
  | obj l => '{' :: dumpMembers P l ++ ['}']

def dumpElements (P : Printer ν) : List (Json ν) → Str
  | [] => []
  | [j] => dump P j
  | j :: l => dump P j ++ ',' :: dumpElements P l

def dumpMembers (P : Printer ν) : List (Str × Json ν) → Str
  | [] => []
  | [(k, j)] => P.quoted k ++ ':' :: dump P j
  | (k, j) :: l => P.quoted k ++ ':' :: dump P j ++ ',' :: dumpMembers P l

end

section Dump

variable (P : Printer ν)

theorem dump_num (x : ν) : dump P (num x) = P.num x := rfl
theorem dump_str (s : Str) : dump P (str s) = P.quoted s := rfl
theorem dump_arr (l : List (Json ν)) : dump P (arr l) = '[' :: dumpElements P l ++ [']'] := rfl
theorem dump_obj (l : List (Str × Json ν)) : dump P (obj l) = '{' :: dumpMembers P l ++ ['}'] := rfl

end Dump

/-! ## Parsing -/

mutual

/-- The characters of all strings in a value. -/
def textSize : Json ν → Nat
  | null => 0
  | bool _ => 0
  | num _ => 0
  | str s => s.length
  | arr l => textSizes l
  | obj l => memberSizes l

def textSizes : List (Json ν) → Nat
  | [] => 0
  | j :: l => textSize j + textSizes l

def memberSizes : List (Str × Json ν) → Nat
  | [] => 0
  | (k, j) :: l => k.length + textSize j + memberSizes l

end

/-- A JSON reader: `none` where it throws. No value is larger than its text. -/
structure Reader (ν : Type) where
  parse : Bytes → Option (Json ν)
  textSize_le : ∀ {t j}, parse t = some j → textSize j ≤ t.length

/-- `json::parse(t)`. -/
def Reader.read (R : Reader ν) (t : Bytes) : Except Exn (Json ν) :=
  match R.parse t with
  | some j => .ok j
  | none => .error .parseError

theorem Reader.read_eq_ok {R : Reader ν} {t : Bytes} {j : Json ν} : R.read t = .ok j ↔ R.parse t = some j := by
  unfold Reader.read
  cases R.parse t with
  | none => exact ⟨nofun, nofun⟩
  | some j' => simp

/-- The reader of a table of texts. -/
def Reader.ofTable (table : List (Bytes × Json ν)) (h : ∀ p ∈ table, textSize p.2 ≤ p.1.length) :
    Reader ν where
  parse t := table.lookup t
  textSize_le := by
    intro t j hj
    obtain ⟨l₁, l₂, rfl, -⟩ := List.lookup_eq_some_iff.mp hj
    exact h (t, j) (by simp)

end Json

/-- What a program asks of its number type: `atof`, `std::to_string` and a JSON
number's text. -/
structure Doubles (ν : Type) extends Json.Printer ν where
  atof : Str → ν
  toString : ν → Str
  toString_ne_nil : ∀ x, toString x ≠ []
  toString_numeral : ∀ x, IsNumeral (toString x)

end Lib
