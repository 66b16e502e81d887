import ConcreteEval.Decoding
import ConcreteEval.Ordering

/-!
# Reading and writing what a call takes and returns

The rest of `concolic_types.cpp`, and the containers of `ConcreteEvaluator.cpp`. A generated `read`
goes on from the object that it is called on, so what it leaves of one that is not fresh is part of
what it does : `overwrite` says it, for any two objects, and `read_written` that this is what
reading a written object comes to. A field that the writer has not set keeps what was there.

A client calls the service with objects that it has built itself, also such with a value in a field
that it has not marked set. On the wire these values are gone : the handler gets the address without
them (`AbsOrRelAddr.sent`), which is decoded and which `operator==` does not tell from the one
that was sent (`AbsOrRelAddr.eq_sent`).

A set is read by inserting one element after the other, and a map by assigning to one key after the
other. What a set or a map has written out in its order comes back (`readRegisters_write`), for a
set of breakpoints where the hand-written order tells its elements apart
(`readBreakpoints_write`), as it does for what `getBreakpoints` lists (`World.wellOrdered_listed`).
-/

namespace ConcreteEval

open Thrift (FieldId Fields Value readStruct readElems readElems_map)

/-! ## Reading into an object that is there -/

/-- The object `o` after it has read what `p` wrote. -/
def OffsetOrSymbol.overwrite (o p : OffsetOrSymbol) : OffsetOrSymbol where
  offset := if p.isset.offset then p.offset else o.offset
  symbol := if p.isset.symbol then p.symbol else o.symbol
  isset := ⟨o.isset.offset || p.isset.offset, o.isset.symbol || p.isset.symbol⟩

/-- The object `r` after it has read what `s` wrote. -/
def RelAddr.overwrite (r s : RelAddr) : RelAddr where
  modulename := s.modulename
  offset := r.offset.overwrite s.offset

/-- The object `a` after it has read what `b` wrote. -/
def AbsOrRelAddr.overwrite (a b : AbsOrRelAddr) : AbsOrRelAddr where
  absaddr := if b.isset.absaddr then b.absaddr else a.absaddr
  reladdr := if b.isset.reladdr then a.reladdr.overwrite b.reladdr else a.reladdr
  isset := ⟨a.isset.absaddr || b.isset.absaddr, a.isset.reladdr || b.isset.reladdr⟩

theorem OffsetOrSymbol.read_written (o p : OffsetOrSymbol) : o.read p.write = o.overwrite p := by
  obtain ⟨offset, symbol, hasOffset, hasSymbol⟩ := p
  cases hasOffset <;> cases hasSymbol <;> simp [write, read, readField, overwrite,
    OffsetOrSymbol.setOffset, OffsetOrSymbol.setSymbol]

theorem RelAddr.read_written (r s : RelAddr) : r.read s.write = r.overwrite s := by
  change ({ modulename := s.modulename, offset := r.offset.read s.offset.write } : RelAddr) = _
  rw [OffsetOrSymbol.read_written]
  rfl

theorem AbsOrRelAddr.read_written (a b : AbsOrRelAddr) : a.read b.write = a.overwrite b := by
  obtain ⟨absaddr, reladdr, hasAbsaddr, hasReladdr⟩ := b
  have hrel : a.reladdr.read reladdr.write = a.reladdr.overwrite reladdr := RelAddr.read_written ..
  cases hasAbsaddr <;> cases hasReladdr <;> simp [write, read, readField, overwrite,
    AbsOrRelAddr.setAbsaddr, AbsOrRelAddr.setReladdr, hrel]

/-- The address that arrives where `a` was sent. -/
def AbsOrRelAddr.sent (a : AbsOrRelAddr) : AbsOrRelAddr :=
  AbsOrRelAddr.overwrite {} a

namespace AbsOrRelAddr

theorem decoded_sent (a : AbsOrRelAddr) : a.sent.Decoded := by
  have h : a.sent = AbsOrRelAddr.read {} a.write := (read_written {} a).symm
  rw [h]
  exact decoded_read decoded_default a.write

/-- `operator==` does not look at what is lost. -/
theorem eq_sent (a : AbsOrRelAddr) : a.eq a.sent = true := by
  obtain ⟨absaddr, ⟨modulename, offset, symbol, hasOffset, hasSymbol⟩, hasAbsaddr, hasReladdr⟩ := a
  cases hasAbsaddr <;> cases hasReladdr <;> cases hasOffset <;> cases hasSymbol <;>
    simp [sent, overwrite, RelAddr.overwrite, OffsetOrSymbol.overwrite, AbsOrRelAddr.eq, RelAddr.eq,
      OffsetOrSymbol.eq]

end AbsOrRelAddr

/-- The breakpoint that arrives where `bp` was sent. -/
def Breakpoint.sent (bp : Breakpoint) : WireBreakpoint :=
  ⟨{ bp with addr := bp.addr.sent }, bp.addr.decoded_sent⟩

theorem Breakpoint.read_written (bp : Breakpoint) : Breakpoint.read {} bp.write = bp.sent.1 := by
  change ({ addr := AbsOrRelAddr.read {} bp.addr.write, count := bp.count } : Breakpoint) = _
  rw [AbsOrRelAddr.read_written]
  rfl

/-- A decoded breakpoint arrives as it is. -/
theorem Breakpoint.sent_of_decoded {bp : Breakpoint} (h : bp.addr.Decoded) : bp.sent.1 = bp :=
  (read_written bp).symm.trans (read_write h)

/-! ## `ModuleInfo` -/

/-- One field of `ModuleInfo::read`. -/
def ModuleInfo.readField (m : ModuleInfo) (fid : FieldId) (v : Value) : ModuleInfo :=
  if fid = 1 then
    match v with
    | .struct fields => { m with addr := m.addr.read fields }
    | _ => m
  else if fid = 2 then
    match v with
    | .i64 base => { m with base := base }
    | _ => m
  else m

/-- `ModuleInfo::read`. -/
def ModuleInfo.read (m : ModuleInfo) (fields : Fields) : ModuleInfo :=
  readStruct ModuleInfo.readField m fields

/-- `ModuleInfo::write`. -/
def ModuleInfo.write (m : ModuleInfo) : Fields :=
  [(1, .struct m.addr.write), (2, .i64 m.base)]

/-- The object `m` after it has read what `n` wrote. -/
def ModuleInfo.overwrite (m n : ModuleInfo) : ModuleInfo where
  addr := m.addr.overwrite n.addr
  base := n.base

theorem ModuleInfo.read_written (m n : ModuleInfo) : m.read n.write = m.overwrite n := by
  change ({ addr := m.addr.read n.addr.write, base := n.base } : ModuleInfo) = _
  rw [RelAddr.read_written]
  rfl

/-! ## `CodeBlock` -/

/-- One field of `CodeBlock::read`. -/
def CodeBlock.readField (b : CodeBlock) (fid : FieldId) (v : Value) : CodeBlock :=
  if fid = 1 then
    match v with
    | .i64 addr => { b with addr := addr }
    | _ => b
  else if fid = 2 then
    match v with
    | .string bytes => { b with bytes := bytes }
    | _ => b
  else if fid = 3 then
    match v with
    | .struct fields => { b with moduleinfo := some ((b.moduleinfo.getD {}).read fields) }
    | _ => b
  else b

/-- `CodeBlock::read`. -/
def CodeBlock.read (b : CodeBlock) (fields : Fields) : CodeBlock :=
  readStruct CodeBlock.readField b fields

/-- `CodeBlock::write`. -/
def CodeBlock.write (b : CodeBlock) : Fields :=
  [(1, .i64 b.addr), (2, .string b.bytes)] ++
    (b.moduleinfo.map fun m => (3, .struct m.write)).toList

/-- The object `b` after it has read what `c` wrote. -/
def CodeBlock.overwrite (b c : CodeBlock) : CodeBlock where
  addr := c.addr
  bytes := c.bytes
  moduleinfo :=
    match c.moduleinfo with
    | some m => some ((b.moduleinfo.getD {}).overwrite m)
    | none => b.moduleinfo

theorem CodeBlock.read_written (b c : CodeBlock) : b.read c.write = b.overwrite c := by
  obtain ⟨addr, bytes, moduleinfo⟩ := c
  cases moduleinfo with
  | none => rfl
  | some m =>
    have hread : CodeBlock.read b (CodeBlock.write ⟨addr, bytes, some m⟩) =
        ⟨addr, bytes, some ((b.moduleinfo.getD {}).read m.write)⟩ := rfl
    rw [hread, ModuleInfo.read_written]
    rfl

/-! ## `Exception` -/

/-- The exception of the service. -/
structure Exception where
  msg : CxxString := []
  deriving DecidableEq

/-- One field of `Exception::read`. -/
def Exception.readField (e : Exception) (fid : FieldId) (v : Value) : Exception :=
  if fid = 1 then
    match v with
    | .string msg => { e with msg := msg }
    | _ => e
  else e

/-- `Exception::read`. -/
def Exception.read (e : Exception) (fields : Fields) : Exception :=
  readStruct Exception.readField e fields

/-- `Exception::write`. -/
def Exception.write (e : Exception) : Fields :=
  [(1, .string e.msg)]

@[simp] theorem Exception.read_write (e e' : Exception) : e.read e'.write = e' :=
  rfl

/-- `Exception::what`. -/
def Exception.what (e : Exception) : CxxString :=
  CxxString.cStr ("TException - service has thrown: Exception(msg=".toList ++ e.msg ++ ")".toList)

/-! ## What is the same on the wire -/

/-- `Breakpoint::operator==`. -/
def Breakpoint.eq (bp rhs : Breakpoint) : Bool :=
  if !bp.addr.eq rhs.addr then false
  else if bp.count ≠ rhs.count then false
  else true

/-- `ModuleInfo::operator==`. -/
def ModuleInfo.eq (m rhs : ModuleInfo) : Bool :=
  if !m.addr.eq rhs.addr then false
  else if m.base ≠ rhs.base then false
  else true

/-- `CodeBlock::operator==`. -/
def CodeBlock.eq (b rhs : CodeBlock) : Bool :=
  if b.addr ≠ rhs.addr then false
  else if b.bytes ≠ rhs.bytes then false
  else
    match b.moduleinfo, rhs.moduleinfo with
    | none, none => true
    | some m, some n => m.eq n
    | _, _ => false

theorem OffsetOrSymbol.write_eq_iff (o p : OffsetOrSymbol) :
    o.write = p.write ↔ o.eq p = true := by
  obtain ⟨offset, symbol, hasOffset, hasSymbol⟩ := o
  obtain ⟨offset', symbol', hasOffset', hasSymbol'⟩ := p
  cases hasOffset <;> cases hasSymbol <;> cases hasOffset' <;> cases hasSymbol' <;>
    simp [write, OffsetOrSymbol.eq]

theorem RelAddr.write_eq_iff (r s : RelAddr) : r.write = s.write ↔ r.eq s = true := by
  simp [write, RelAddr.eq, OffsetOrSymbol.write_eq_iff]

theorem AbsOrRelAddr.write_eq_iff (a b : AbsOrRelAddr) : a.write = b.write ↔ a.eq b = true := by
  obtain ⟨absaddr, reladdr, hasAbsaddr, hasReladdr⟩ := a
  obtain ⟨absaddr', reladdr', hasAbsaddr', hasReladdr'⟩ := b
  cases hasAbsaddr <;> cases hasReladdr <;> cases hasAbsaddr' <;> cases hasReladdr' <;>
    simp [write, AbsOrRelAddr.eq, RelAddr.write_eq_iff]

theorem Breakpoint.write_eq_iff (bp rhs : Breakpoint) :
    bp.write = rhs.write ↔ bp.eq rhs = true := by
  simp [write, Breakpoint.eq, AbsOrRelAddr.write_eq_iff]

theorem ModuleInfo.write_eq_iff (m n : ModuleInfo) : m.write = n.write ↔ m.eq n = true := by
  simp [write, ModuleInfo.eq, RelAddr.write_eq_iff]

theorem CodeBlock.write_eq_iff (b c : CodeBlock) : b.write = c.write ↔ b.eq c = true := by
  obtain ⟨addr, bytes, moduleinfo⟩ := b
  obtain ⟨addr', bytes', moduleinfo'⟩ := c
  cases moduleinfo <;> cases moduleinfo' <;>
    simp [write, CodeBlock.eq, ModuleInfo.write_eq_iff]

/-- Breakpoints that are written alike arrive alike. -/
theorem Breakpoint.sent_congr {bp rhs : Breakpoint} (h : bp.write = rhs.write) :
    bp.sent = rhs.sent :=
  Subtype.ext ((read_written bp).symm.trans (h ▸ read_written rhs))

/-- What arrives is written as it was sent. -/
theorem Breakpoint.write_sent (bp : Breakpoint) : bp.sent.1.write = bp.write := by
  have haddr : bp.addr.write = bp.addr.sent.write :=
    (AbsOrRelAddr.write_eq_iff _ _).mpr bp.addr.eq_sent
  simp only [write, sent, haddr]

/-- The handler gets the one decoded breakpoint that `operator==` does not tell from what the client
sent, so it takes two breakpoints for one just if `operator==` does; and blocks are written alike
just if `operator==` takes them for one. -/
theorem wire_eq_iff :
    (∀ (bp : Breakpoint) (q : WireBreakpoint), q = bp.sent ↔ bp.eq q.1 = true) ∧
      (∀ bp rhs : Breakpoint, bp.sent = rhs.sent ↔ bp.eq rhs = true) ∧
        ∀ b c : CodeBlock, b.write = c.write ↔ b.eq c = true := by
  refine ⟨fun bp q => ?_, fun bp rhs => ?_, CodeBlock.write_eq_iff⟩
  · rw [← Breakpoint.write_eq_iff]
    constructor
    · rintro rfl
      exact bp.write_sent.symm
    · intro h
      exact (Subtype.ext (Breakpoint.sent_of_decoded q.2)).symm.trans (Breakpoint.sent_congr h.symm)
  · rw [← Breakpoint.write_eq_iff]
    constructor
    · intro h
      rw [← bp.write_sent, h, rhs.write_sent]
    · exact Breakpoint.sent_congr

/-! ## Events -/

/-- The number of an event. -/
def EventType.number : EventType → BitVec 32
  | .breakpoint => 0
  | .timeout => 1
  | .termination => 2
  | .relevantBlock => 3
  | .beforeSystemCall => 4
  | .afterSystemCall => 5

/-- All events, in the order of their numbers. -/
def eventTypes : List EventType :=
  [.breakpoint, .timeout, .termination, .relevantBlock, .beforeSystemCall, .afterSystemCall]

/-- The event with this number. -/
def EventType.ofNumber? (n : BitVec 32) : Option EventType :=
  eventTypes.find? fun e => e.number = n

@[simp] theorem EventType.ofNumber?_number (e : EventType) : ofNumber? e.number = some e := by
  cases e <;> rfl

theorem mem_eventTypes (e : EventType) : e ∈ eventTypes := by
  cases e <;> decide

/-- One element of a set of events. No code asks a set for a number that is not an event. -/
def readEventElem (s : EventTypes) : Value → Option EventTypes
  | .i32 n =>
    match EventType.ofNumber? n with
    | some e => some (insert e s)
    | none => some s
  | _ => none

/-- The elements of a set of events, read into a set that has been cleared. -/
def readEvents (elems : List Value) : Option EventTypes :=
  readElems readEventElem ∅ elems

def writeEvents (s : EventTypes) : List Value :=
  (eventTypes.filter (· ∈ s)).map fun e => .i32 e.number

theorem readEvents_write (s : EventTypes) : readEvents (writeEvents s) = some s := by
  have helem : ∀ (s : EventTypes) (e : EventType),
      readEventElem s (.i32 e.number) = some (insert e s) := by
    intro s e
    simp only [readEventElem, EventType.ofNumber?_number]
  have hfold : ∀ (l : List EventType) (s₀ : EventTypes),
      l.foldl (fun s e => insert e s) s₀ = l.toFinset ∪ s₀ := by
    intro l
    induction l with
    | nil => simp
    | cons e l ih => simp [ih]
  unfold readEvents writeEvents
  rw [readElems_map helem, hfold]
  congr 1
  ext e
  simp [mem_eventTypes]

/-! ## Sets of breakpoints -/

/-- One element of a set of breakpoints. -/
def readBreakpointElem (s : List Breakpoint) : Value → Option (List Breakpoint)
  | .struct fields => some (setInsert (fun x y => x.lt y = true) (Breakpoint.read {} fields) s)
  | _ => none

/-- The elements of a set of breakpoints, read into a set that has been cleared. -/
def readBreakpoints (elems : List Value) : Option (List Breakpoint) :=
  readElems readBreakpointElem [] elems

def writeBreakpoints (s : List Breakpoint) : List Value :=
  s.map fun bp => .struct bp.write

/-- A set of decoded breakpoints that the order tells apart, in this order. -/
structure WellOrdered (s : List Breakpoint) : Prop where
  decoded : ∀ bp ∈ s, bp.addr.Decoded
  sorted : s.Pairwise fun x y => x.lt y = true ∧ ¬y.lt x = true

theorem readBreakpoints_write {s : List Breakpoint} (h : WellOrdered s) :
    readBreakpoints (writeBreakpoints s) = some s := by
  have helem : ∀ (s : List Breakpoint) (bp : Breakpoint),
      readBreakpointElem s (.struct bp.write) =
        some (setInsert (fun x y => x.lt y = true) bp.sent.1 s) := by
    intro s bp
    rw [readBreakpointElem, Breakpoint.read_written]
  have hsent : s.map (fun bp => bp.sent.1) = s := by
    rw [List.map_congr_left fun bp hbp => Breakpoint.sent_of_decoded (h.decoded bp hbp)]
    exact List.map_id s
  unfold readBreakpoints writeBreakpoints
  rw [readElems_map helem, ← List.foldl_map (f := fun bp : Breakpoint => bp.sent.1)
    (g := fun s bp => setInsert (fun x y : Breakpoint => x.lt y = true) bp s), hsent,
    foldl_setInsert h.sorted]

namespace World

/-- The order of the elements that `getBreakpoints` makes of the entries. -/
abbrev ListedLt (p q : AppPc × SizeT) : Prop :=
  (listedBreakpoint p).lt (listedBreakpoint q) = true

theorem listedLt_iff (p q : AppPc × SizeT) :
    ListedLt p q ↔ p.1.toInt < q.1.toInt ∨ p.1 = q.1 ∧ p.2.toInt < q.2.toInt := by
  have hdecoded : ∀ p, (listedBreakpoint p).addr.Decoded := fun p =>
    AbsOrRelAddr.decoded_default.setAbsaddr p.1
  rw [ListedLt, Breakpoint.lt_iff (hdecoded p) (hdecoded q)]
  by_cases h : p.1 = q.1
  · simp [listedBreakpoint, AbsOrRelAddr.setAbsaddr, h]
  · simp [listedBreakpoint, AbsOrRelAddr.setAbsaddr, h, AbsOrRelAddr.raw,
      Prod.Lex.toLex_lt_toLex]

instance : IsTrans (AppPc × SizeT) ListedLt where
  trans p q r hpq hqr := by
    rw [listedLt_iff] at hpq hqr ⊢
    rcases hpq with hpq | ⟨hpq, hpq'⟩ <;> rcases hqr with hqr | ⟨hqr, hqr'⟩
    · exact Or.inl (hpq.trans hqr)
    · exact Or.inl (hqr ▸ hpq)
    · exact Or.inl (hpq ▸ hqr)
    · exact Or.inr ⟨hpq.trans hqr, hpq'.trans hqr'⟩

theorem ListedLt.asymm {p q : AppPc × SizeT} (hpq : ListedLt p q) : ¬ListedLt q p := by
  rw [listedLt_iff] at hpq ⊢
  rintro (hqp | ⟨hqp, hqp'⟩) <;> rcases hpq with hpq | ⟨hpq, hpq'⟩
  · omega
  · rw [hpq] at hqp
    omega
  · rw [hqp] at hpq
    omega
  · omega

/-- What `getBreakpoints` lists are elements made of entries, in their order. -/
theorem exists_listed (active : StdMap AppPc SizeT) :
    ∃ s : List (AppPc × SizeT), listed active = s.map listedBreakpoint ∧ s.Pairwise ListedLt := by
  have hfold : ∀ l s : List (AppPc × SizeT), s.Pairwise ListedLt →
      ∃ s' : List (AppPc × SizeT), s'.Pairwise ListedLt ∧ s'.map listedBreakpoint =
        l.foldl (fun s p => setInsert (fun x y => x.lt y = true) (listedBreakpoint p) s)
          (s.map listedBreakpoint) := by
    intro l
    induction l with
    | nil => exact fun s hs => ⟨s, hs, rfl⟩
    | cons p l ih =>
      intro s hs
      have hinsert : setInsert (fun x y : Breakpoint => x.lt y = true) (listedBreakpoint p)
          (s.map listedBreakpoint) = (setInsert ListedLt p s).map listedBreakpoint :=
        setInsert_map (f := listedBreakpoint) (fun _ _ => Iff.rfl) p s
      rw [List.foldl_cons, hinsert]
      exact ih _ (pairwise_setInsert hs)
  obtain ⟨s, hsorted, hs⟩ := hfold active.entries [] List.Pairwise.nil
  exact ⟨s, hs.symm, hsorted⟩

theorem wellOrdered_listed (active : StdMap AppPc SizeT) : WellOrdered (listed active) := by
  obtain ⟨s, hs, hsorted⟩ := exists_listed active
  rw [hs]
  constructor
  · intro bp hbp
    obtain ⟨p, -, rfl⟩ := List.mem_map.mp hbp
    exact AbsOrRelAddr.decoded_default.setAbsaddr p.1
  · exact List.pairwise_map.mpr (hsorted.imp fun hpq => ⟨hpq, hpq.asymm⟩)

end World

/-! ## Registers -/

/-- One entry of a map of registers. -/
def readRegister (c : RegisterContext) : Value × Value → Option RegisterContext
  | (.string key, .string val) => some (c.assign key val)
  | _ => none

/-- The entries of a map of registers, read into a map that has been cleared. -/
def readRegisters (entries : List (Value × Value)) : Option RegisterContext :=
  readElems readRegister ∅ entries

def writeRegisters (c : RegisterContext) : List (Value × Value) :=
  c.entries.map fun p => (.string p.1, .string p.2)

theorem readRegisters_write (c : RegisterContext) :
    readRegisters (writeRegisters c) = some c := by
  have hentry : ∀ (c : RegisterContext) (p : CxxString × CxxString),
      readRegister c (.string p.1, .string p.2) = some (c.assign p.1 p.2) := fun _ _ => rfl
  unfold readRegisters writeRegisters
  rw [readElems_map hentry, StdMap.foldl_assign_entries]

end ConcreteEval
