import Mathlib.Data.List.Basic

/-! JSON values, and decoders that answer the value a JSON value stands for or
what is wrong with it. A decoder reads back an encoder at a value when it
answers that value on its encoding; fields, lists and nullable values pass that on. -/

inductive Json
  | null
  | number (n : Int)
  | string (s : String)
  | array (items : List Json)
  | object (fields : List (String × Json))

namespace Json

inductive DecodeError
  | missing (field : String)
  | wrongType
  | malformed (text : String)
  deriving DecidableEq, Repr

abbrev Decoder (α : Type) := Json → Except DecodeError α

variable {α β : Type}

def text : Decoder String
  | .string s => .ok s
  | _ => .error .wrongType

def int : Decoder Int
  | .number n => .ok n
  | _ => .error .wrongType

/-- A string that `read` can read. -/
def parsed (read : String → Option α) : Decoder α
  | .string s =>
    match read s with
    | some a => .ok a
    | none => .error (.malformed s)
  | _ => .error .wrongType

/-- `None` for `null` and for the empty string. -/
def nullable (dec : Decoder α) : Decoder (Option α)
  | .null => .ok none
  | .string "" => .ok none
  | j => (dec j).map some

def items (dec : Decoder α) : List Json → Except DecodeError (List α)
  | [] => .ok []
  | j :: js => do
    let a ← dec j
    let as ← items dec js
    pure (a :: as)

def list (dec : Decoder α) : Decoder (List α)
  | .array js => items dec js
  | _ => .error .wrongType

def get? (fields : List (String × Json)) (name : String) : Option Json :=
  (fields.find? fun f => f.1 = name).map Prod.snd

/-- `obj[name]`. -/
def field (name : String) (dec : Decoder α) : Decoder α
  | .object fields =>
    match get? fields name with
    | some j => dec j
    | none => .error (.missing name)
  | _ => .error .wrongType

/-- `obj.get(name, default)`. -/
def fieldD (name : String) (dec : Decoder α) (default : α) : Decoder α
  | .object fields =>
    match get? fields name with
    | some j => dec j
    | none => .ok default
  | _ => .error .wrongType

/-- `dec` answers `x` on the encoding of `x`. -/
def Reads (enc : α → Json) (dec : Decoder α) (x : α) : Prop := dec (enc x) = .ok x

theorem reads_parsed {show_ : α → String} {read : String → Option α} {x : α}
    (h : read (show_ x) = some x) : Reads (fun x => .string (show_ x)) (parsed read) x := by
  simp only [Reads, parsed, h]

/-- An encoding that a nullable field can tell from a missing value. -/
def Tells (j : Json) : Prop := j ≠ .null ∧ j ≠ .string ""

theorem nullable_of_tells {dec : Decoder α} {j : Json} (h : Tells j) :
    nullable dec j = (dec j).map some := by
  unfold nullable
  split
  · exact absurd rfl h.1
  · exact absurd rfl h.2
  · rfl

theorem reads_nullable {enc : α → Json} {dec : Decoder α} {x : Option α}
    (h : ∀ a ∈ x, Tells (enc a) ∧ Reads enc dec a) :
    Reads (fun x => (x.map enc).getD .null) (nullable dec) x := by
  cases x with
  | none => rfl
  | some a =>
    obtain ⟨ht, hr⟩ := h a rfl
    change nullable dec (enc a) = _
    rw [nullable_of_tells ht, hr]
    rfl

theorem items_map {enc : α → Json} {dec : Decoder α} {xs : List α} (h : ∀ x ∈ xs, Reads enc dec x) :
    items dec (xs.map enc) = .ok xs := by
  induction xs with
  | nil => rfl
  | cons x xs ih =>
    have hx : dec (enc x) = .ok x := h x List.mem_cons_self
    rw [List.map_cons, items, hx, ih fun y hy => h y (List.mem_cons_of_mem _ hy)]
    rfl

theorem reads_list {enc : α → Json} {dec : Decoder α} {xs : List α} (h : ∀ x ∈ xs, Reads enc dec x) :
    Reads (fun xs => .array (xs.map enc)) (list dec) xs := items_map h

end Json
