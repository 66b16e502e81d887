import Mathlib.Data.BitVec

/-!
# Thrift structs

A struct on the wire is a sequence of fields, each a field id with a typed value. A generated
`read` takes them one after the other, in the order they come, and puts what it knows into the
object that it is called on : a field that is repeated is read again, a field with an id or a type
that the reader does not know is skipped (`readStruct`). What every field preserves, the whole
struct preserves (`readStruct_induction`).

A container announces the type of its elements, and a generated `read` does not look at it : where
the elements are of another type than the field has, their bytes are taken for something else, and
what comes of it is not modelled (`readStruct?`, `readElems`). Elements that were written are read
back in their order (`readElems_map`).

A message that breaks off is not here : the protocol throws, and nobody sees the object. A message
is a header and a struct, which a reader takes from the stream one after the other (`Token`).
-/

namespace ConcreteEval

namespace Thrift

/-- The id of a field. -/
abbrev FieldId := BitVec 16

/-- A value with its type. -/
inductive Value
  | bool (v : Bool)
  | byte (v : BitVec 8)
  | i16 (v : BitVec 16)
  | i32 (v : BitVec 32)
  | i64 (v : BitVec 64)
  | double (bits : BitVec 64)
  | string (v : List Char)
  | struct (fields : List (FieldId × Value))
  | map (entries : List (Value × Value))
  | set (elems : List Value)
  | list (elems : List Value)

/-- The fields of a struct, up to the stop field. -/
abbrev Fields := List (FieldId × Value)

section ReadStruct

variable {α : Type} {readField : α → FieldId → Value → α} {a : α} {fields : Fields}

/-- Read a struct into `a`. -/
def readStruct (readField : α → FieldId → Value → α) (a : α) (fields : Fields) : α :=
  fields.foldl (fun a f => readField a f.1 f.2) a

@[simp] theorem readStruct_nil : readStruct readField a [] = a :=
  rfl

@[simp] theorem readStruct_cons (fid : FieldId) (v : Value) :
    readStruct readField a ((fid, v) :: fields) = readStruct readField (readField a fid v) fields :=
  rfl

/-- What every field preserves, the struct preserves. -/
theorem readStruct_induction {P : α → Prop} (ha : P a)
    (hf : ∀ a fid v, P a → P (readField a fid v)) : P (readStruct readField a fields) := by
  induction fields generalizing a with
  | nil => exact ha
  | cons f fields ih => exact ih (hf a f.1 f.2 ha)

end ReadStruct

section ReadElems

variable {α β ε : Type}

/-- Read a struct into `a`, where the bytes of a field may be taken for something else. -/
def readStruct? (readField : α → FieldId → Value → Option α) (a : α) (fields : Fields) :
    Option α :=
  fields.foldlM (fun a f => readField a f.1 f.2) a

/-- Read the elements of a container into `a`. -/
def readElems (readElem : α → ε → Option α) (a : α) (elems : List ε) : Option α :=
  elems.foldlM readElem a

/-- Elements that were written are read back in their order. -/
theorem readElems_map {readElem : α → ε → Option α} {write : β → ε} {f : α → β → α}
    (h : ∀ a b, readElem a (write b) = some (f a b)) (a : α) (l : List β) :
    readElems readElem a (l.map write) = some (l.foldl f a) := by
  unfold readElems
  induction l generalizing a with
  | nil => rfl
  | cons b l ih =>
    rw [List.map_cons, List.foldlM_cons, h, Option.bind_eq_bind, Option.bind_some, ih,
      List.foldl_cons]

end ReadElems

/-! ## Messages -/

/-- The number of a call on its connection. -/
abbrev SeqId := BitVec 32

inductive MessageType
  | call
  | reply
  | exception
  | oneway
  deriving DecidableEq

/-- What `writeMessageBegin` writes. -/
structure Header where
  fname : List Char
  mtype : MessageType
  seqid : SeqId
  deriving DecidableEq

structure Message where
  header : Header
  body : Fields

/-- What a reader takes from the stream at once. -/
inductive Token
  | header (h : Header)
  | body (fields : Fields)

def Message.tokens (x : Message) : List Token :=
  [.header x.header, .body x.body]

section Tokens

variable (ys : List Message) (i : ℕ)

/-- The headers are at the even places of the stream. -/
theorem getElem?_tokens_header : (ys.flatMap Message.tokens)[2 * i]? =
    ys[i]?.map fun y => .header y.header := by
  induction ys generalizing i with
  | nil => rfl
  | cons y ys ih =>
    cases i with
    | zero => rfl
    | succ i => exact ih i

/-- The structs are at the odd places. -/
theorem getElem?_tokens_body : (ys.flatMap Message.tokens)[2 * i + 1]? =
    ys[i]?.map fun y => .body y.body := by
  induction ys generalizing i with
  | nil => rfl
  | cons y ys ih =>
    cases i with
    | zero => rfl
    | succ i => exact ih i

end Tokens

/-- `TApplicationException`, with the number of its kind. -/
structure TApplicationException where
  type : BitVec 32
  message : List Char
  deriving DecidableEq

namespace TApplicationException

/-- `UNKNOWN`. -/
def unknown : BitVec 32 := 0

/-- `UNKNOWN_METHOD`. -/
def unknownMethod : BitVec 32 := 1

/-- `MISSING_RESULT`. -/
def missingResult : BitVec 32 := 5

end TApplicationException

/-- How the library writes and reads a `TApplicationException`. -/
structure ExceptionCodec where
  write : TApplicationException → Fields
  read : Fields → TApplicationException
  read_write : ∀ x, read (write x) = x

end Thrift

end ConcreteEval
