import ConcreteEval.ConcolicTypes
import ConcreteEval.Thrift

/-!
# Reading and writing the Thrift types

The `read` and `write` of `concolic_types.cpp`, on the fields of a struct. A `read` goes on from
what the object holds : an optional field gets its bit with its value, and a field that is a struct
is read into the struct that is there. So the values that reading can produce from a
default-constructed object are exactly the decoded ones, those that have the default in every unset
field (`RelAddr.exists_read_iff`, `AbsOrRelAddr.exists_read_iff`, `Breakpoint.exists_read_iff`) :
every field preserves this, and what was written is read back (`AbsOrRelAddr.read_write`).
-/

namespace ConcreteEval

open Thrift (FieldId Fields Value readStruct readStruct_induction)

/-! ## `OffsetOrSymbol` -/

def OffsetOrSymbol.setSymbol (o : OffsetOrSymbol) (val : CxxString) : OffsetOrSymbol :=
  { o with symbol := val, isset := { o.isset with symbol := true } }

/-- One field of `OffsetOrSymbol::read`. -/
def OffsetOrSymbol.readField (o : OffsetOrSymbol) (fid : FieldId) (v : Value) : OffsetOrSymbol :=
  if fid = 1 then
    match v with
    | .i64 offset => o.setOffset offset
    | _ => o
  else if fid = 2 then
    match v with
    | .string symbol => o.setSymbol symbol
    | _ => o
  else o

/-- `OffsetOrSymbol::read`. -/
def OffsetOrSymbol.read (o : OffsetOrSymbol) (fields : Fields) : OffsetOrSymbol :=
  readStruct OffsetOrSymbol.readField o fields

/-- `OffsetOrSymbol::write`. -/
def OffsetOrSymbol.write (o : OffsetOrSymbol) : Fields :=
  (if o.isset.offset then [(1, .i64 o.offset)] else []) ++
    if o.isset.symbol then [(2, .string o.symbol)] else []

namespace OffsetOrSymbol

variable {o : OffsetOrSymbol}

theorem Decoded.setSymbol (h : o.Decoded) (val : CxxString) : (o.setSymbol val).Decoded :=
  ⟨h.offset, fun h => by simp [OffsetOrSymbol.setSymbol] at h⟩

theorem readField_cases (o : OffsetOrSymbol) (fid : FieldId) (v : Value) :
    o.readField fid v = o ∨ (∃ offset, o.readField fid v = o.setOffset offset) ∨
      ∃ symbol, o.readField fid v = o.setSymbol symbol := by
  unfold readField
  split_ifs
  · split
    · exact Or.inr (Or.inl ⟨_, rfl⟩)
    · exact Or.inl rfl
  · split
    · exact Or.inr (Or.inr ⟨_, rfl⟩)
    · exact Or.inl rfl
  · exact Or.inl rfl

theorem decoded_read (h : o.Decoded) (fields : Fields) : (o.read fields).Decoded := by
  refine readStruct_induction h fun o fid v ho => ?_
  rcases o.readField_cases fid v with hr | ⟨offset, hr⟩ | ⟨symbol, hr⟩
  · rwa [hr]
  · rw [hr]
    exact ho.setOffset offset
  · rw [hr]
    exact ho.setSymbol symbol

theorem read_write (h : o.Decoded) : OffsetOrSymbol.read {} o.write = o := by
  obtain ⟨offset, symbol, hasOffset, hasSymbol⟩ := o
  have hoffset := h.offset
  have hsymbol := h.symbol
  cases hasOffset <;> cases hasSymbol <;> simp_all [write, read, readField,
    OffsetOrSymbol.setOffset, OffsetOrSymbol.setSymbol]

end OffsetOrSymbol

/-! ## `RelAddr` -/

/-- One field of `RelAddr::read`. -/
def RelAddr.readField (r : RelAddr) (fid : FieldId) (v : Value) : RelAddr :=
  if fid = 1 then
    match v with
    | .string modulename => { r with modulename := modulename }
    | _ => r
  else if fid = 2 then
    match v with
    | .struct fields => { r with offset := r.offset.read fields }
    | _ => r
  else r

/-- `RelAddr::read`. -/
def RelAddr.read (r : RelAddr) (fields : Fields) : RelAddr :=
  readStruct RelAddr.readField r fields

/-- `RelAddr::write`. -/
def RelAddr.write (r : RelAddr) : Fields :=
  [(1, .string r.modulename), (2, .struct r.offset.write)]

namespace RelAddr

variable {r : RelAddr}

theorem decoded_default : ({} : RelAddr).Decoded :=
  OffsetOrSymbol.decoded_default

theorem readField_cases (r : RelAddr) (fid : FieldId) (v : Value) :
    r.readField fid v = r ∨
      (∃ modulename, r.readField fid v = { r with modulename := modulename }) ∨
      ∃ fields, r.readField fid v = { r with offset := r.offset.read fields } := by
  unfold readField
  split_ifs
  · split
    · exact Or.inr (Or.inl ⟨_, rfl⟩)
    · exact Or.inl rfl
  · split
    · exact Or.inr (Or.inr ⟨_, rfl⟩)
    · exact Or.inl rfl
  · exact Or.inl rfl

theorem decoded_read (h : r.Decoded) (fields : Fields) : (r.read fields).Decoded := by
  refine readStruct_induction h fun r fid v hr => ?_
  rcases r.readField_cases fid v with heq | ⟨modulename, heq⟩ | ⟨fields, heq⟩
  · rwa [heq]
  · rw [heq]
    exact hr
  · rw [heq]
    exact OffsetOrSymbol.decoded_read hr fields

theorem read_write (h : r.Decoded) : RelAddr.read {} r.write = r := by
  change ({ modulename := r.modulename, offset := OffsetOrSymbol.read {} r.offset.write } :
    RelAddr) = r
  rw [OffsetOrSymbol.read_write h]

/-- Reading produces the decoded values. -/
theorem exists_read_iff : (∃ fields, RelAddr.read {} fields = r) ↔ r.Decoded := by
  constructor
  · rintro ⟨fields, rfl⟩
    exact decoded_read decoded_default fields
  · exact fun h => ⟨r.write, read_write h⟩

end RelAddr

/-! ## `AbsOrRelAddr` -/

/-- One field of `AbsOrRelAddr::read`. -/
def AbsOrRelAddr.readField (a : AbsOrRelAddr) (fid : FieldId) (v : Value) : AbsOrRelAddr :=
  if fid = 1 then
    match v with
    | .i64 absaddr => a.setAbsaddr absaddr
    | _ => a
  else if fid = 2 then
    match v with
    | .struct fields => a.setReladdr (a.reladdr.read fields)
    | _ => a
  else a

/-- `AbsOrRelAddr::read`. -/
def AbsOrRelAddr.read (a : AbsOrRelAddr) (fields : Fields) : AbsOrRelAddr :=
  readStruct AbsOrRelAddr.readField a fields

/-- `AbsOrRelAddr::write`. -/
def AbsOrRelAddr.write (a : AbsOrRelAddr) : Fields :=
  (if a.isset.absaddr then [(1, .i64 a.absaddr)] else []) ++
    if a.isset.reladdr then [(2, .struct a.reladdr.write)] else []

namespace AbsOrRelAddr

variable {a : AbsOrRelAddr}

theorem decoded_default : ({} : AbsOrRelAddr).Decoded :=
  ⟨fun _ => rfl, fun _ => rfl, RelAddr.decoded_default⟩

theorem Decoded.setAbsaddr (h : a.Decoded) (val : AbsAddr) : (a.setAbsaddr val).Decoded :=
  ⟨fun h => by simp [AbsOrRelAddr.setAbsaddr] at h, h.reladdr, h.decoded⟩

theorem Decoded.setReladdr (h : a.Decoded) {val : RelAddr} (hval : val.Decoded) :
    (a.setReladdr val).Decoded :=
  ⟨h.absaddr, fun h => by simp [AbsOrRelAddr.setReladdr] at h, hval⟩

theorem readField_cases (a : AbsOrRelAddr) (fid : FieldId) (v : Value) :
    a.readField fid v = a ∨ (∃ absaddr, a.readField fid v = a.setAbsaddr absaddr) ∨
      ∃ fields, a.readField fid v = a.setReladdr (a.reladdr.read fields) := by
  unfold readField
  split_ifs
  · split
    · exact Or.inr (Or.inl ⟨_, rfl⟩)
    · exact Or.inl rfl
  · split
    · exact Or.inr (Or.inr ⟨_, rfl⟩)
    · exact Or.inl rfl
  · exact Or.inl rfl

theorem decoded_read (h : a.Decoded) (fields : Fields) : (a.read fields).Decoded := by
  refine readStruct_induction h fun a fid v ha => ?_
  rcases a.readField_cases fid v with heq | ⟨absaddr, heq⟩ | ⟨fields, heq⟩
  · rwa [heq]
  · rw [heq]
    exact ha.setAbsaddr absaddr
  · rw [heq]
    exact ha.setReladdr (RelAddr.decoded_read ha.decoded fields)

theorem read_write (h : a.Decoded) : AbsOrRelAddr.read {} a.write = a := by
  obtain ⟨absaddr, reladdr, hasAbsaddr, hasReladdr⟩ := a
  have habs := h.absaddr
  have hrel := h.reladdr
  have hread : RelAddr.read {} reladdr.write = reladdr := RelAddr.read_write h.decoded
  cases hasAbsaddr <;> cases hasReladdr <;> simp_all [write, read, readField,
    AbsOrRelAddr.setAbsaddr, AbsOrRelAddr.setReladdr]

/-- Reading produces the decoded values. -/
theorem exists_read_iff : (∃ fields, AbsOrRelAddr.read {} fields = a) ↔ a.Decoded := by
  constructor
  · rintro ⟨fields, rfl⟩
    exact decoded_read decoded_default fields
  · exact fun h => ⟨a.write, read_write h⟩

end AbsOrRelAddr

/-! ## `Breakpoint` -/

/-- One field of `Breakpoint::read`. -/
def Breakpoint.readField (bp : Breakpoint) (fid : FieldId) (v : Value) : Breakpoint :=
  if fid = 1 then
    match v with
    | .struct fields => { bp with addr := bp.addr.read fields }
    | _ => bp
  else if fid = 2 then
    match v with
    | .i64 count => { bp with count := count }
    | _ => bp
  else bp

/-- `Breakpoint::read`. -/
def Breakpoint.read (bp : Breakpoint) (fields : Fields) : Breakpoint :=
  readStruct Breakpoint.readField bp fields

/-- `Breakpoint::write`. -/
def Breakpoint.write (bp : Breakpoint) : Fields :=
  [(1, .struct bp.addr.write), (2, .i64 bp.count)]

/-- One field of `ConcreteEvaluator_addBreakpoint_args::read`. -/
def Breakpoint.readArgsField (bp : Breakpoint) (fid : FieldId) (v : Value) : Breakpoint :=
  if fid = 1 then
    match v with
    | .struct fields => bp.read fields
    | _ => bp
  else bp

namespace Breakpoint

variable {bp : Breakpoint}

theorem readField_cases (bp : Breakpoint) (fid : FieldId) (v : Value) :
    bp.readField fid v = bp ∨
      (∃ fields, bp.readField fid v = { bp with addr := bp.addr.read fields }) ∨
      ∃ count, bp.readField fid v = { bp with count := count } := by
  unfold readField
  split_ifs
  · split
    · exact Or.inr (Or.inl ⟨_, rfl⟩)
    · exact Or.inl rfl
  · split
    · exact Or.inr (Or.inr ⟨_, rfl⟩)
    · exact Or.inl rfl
  · exact Or.inl rfl

theorem decoded_read (h : bp.addr.Decoded) (fields : Fields) : (bp.read fields).addr.Decoded := by
  refine readStruct_induction (P := fun bp : Breakpoint => bp.addr.Decoded) h fun bp fid v hbp => ?_
  rcases bp.readField_cases fid v with heq | ⟨fields, heq⟩ | ⟨count, heq⟩
  · rwa [heq]
  · rw [heq]
    exact AbsOrRelAddr.decoded_read hbp fields
  · rw [heq]
    exact hbp

theorem read_write (h : bp.addr.Decoded) : Breakpoint.read {} bp.write = bp := by
  change ({ addr := AbsOrRelAddr.read {} bp.addr.write, count := bp.count } : Breakpoint) = bp
  rw [AbsOrRelAddr.read_write h]

/-- Reading produces the values with a decoded address. -/
theorem exists_read_iff : (∃ fields, Breakpoint.read {} fields = bp) ↔ bp.addr.Decoded := by
  constructor
  · rintro ⟨fields, rfl⟩
    exact decoded_read AbsOrRelAddr.decoded_default fields
  · exact fun h => ⟨bp.write, read_write h⟩

theorem decoded_readArgs (fields : Fields) :
    (readStruct readArgsField {} fields : Breakpoint).addr.Decoded := by
  refine readStruct_induction (P := fun bp : Breakpoint => bp.addr.Decoded)
    AbsOrRelAddr.decoded_default fun bp fid v hbp => ?_
  unfold readArgsField
  split_ifs
  · split
    · exact decoded_read hbp _
    · exact hbp
  · exact hbp

end Breakpoint

/-- `ConcreteEvaluator_addBreakpoint_args::read`, and that of `delBreakpoint` : the breakpoint
that the handler is called with. -/
def readBreakpointArgs (fields : Fields) : WireBreakpoint :=
  ⟨readStruct Breakpoint.readArgsField {} fields, Breakpoint.decoded_readArgs fields⟩

/-- Every decoded breakpoint is the argument of some message. -/
theorem exists_readBreakpointArgs (bp : WireBreakpoint) :
    ∃ fields, readBreakpointArgs fields = bp :=
  ⟨[(1, .struct bp.1.write)], Subtype.ext (Breakpoint.read_write bp.2)⟩

end ConcreteEval
