import Mathlib.Data.Finset.Basic
import Mathlib.Data.List.Lex
import Mathlib.Data.Prod.Lex
import Mathlib.Data.Char
import ConcreteEval.StdMap

/-!
# The Thrift types

The structures of `concolic.thrift` as the generated `concolic_types.h` declares them :
every optional field has a value and an `__isset` bit. The generated `operator==` looks
at the bits and compares set fields only, the hand-written `operator<` of `helpers.cpp`
compares the values whatever the bits say.

A decoded value has the default in every unset field (`Decoded`), because reading starts
from a default-constructed value and sets the bit with the value. On decoded relative
addresses `operator<` is the lexicographic order of the raw values (`RelAddr.lt_iff`),
hence a strict weak order, and `DeferredKey` carries the proof into the key type of
`deferred_breakpoints`.

`AppPc`, `size_t` and `int64_t` are the same 64 bits; a `std::string` is its list of
bytes, each byte the `Char` of that code. The bits of `RelAddr`, `Breakpoint` and
`Exception`, which no function reads, are left out.
-/

namespace ConcreteEval

/-- The bytes of a `std::string`. -/
abbrev CxxString := List Char

/-- The C string at the start of a `std::string` : up to the first null byte. -/
def CxxString.cStr (s : CxxString) : CxxString :=
  s.takeWhile (· ≠ '\x00')

/-- `app_pc`, an address in the application. -/
abbrev AppPc := BitVec 64

/-- `size_t`. -/
abbrev SizeT := BitVec 64

/-- `int64_t`, in two's complement. -/
abbrev I64 := BitVec 64

/-- Addresses as the client sees them. -/
abbrev AbsAddr := I64

/-- Offsets into a module. -/
abbrev Offset := I64

inductive EventType
  | breakpoint
  | timeout
  | termination
  | relevantBlock
  | beforeSystemCall
  | afterSystemCall
  deriving DecidableEq

abbrev EventTypes := Finset EventType

/-! ## Addresses -/

structure OffsetOrSymbol.IsSet where
  offset : Bool := false
  symbol : Bool := false
  deriving DecidableEq

/-- Either a fixed offset or a symbol pointing inside a module. -/
structure OffsetOrSymbol where
  offset : Offset := 0
  symbol : CxxString := []
  isset : OffsetOrSymbol.IsSet := {}
  deriving DecidableEq

/-- Relative address inside a module. -/
structure RelAddr where
  modulename : CxxString := []
  offset : OffsetOrSymbol := {}
  deriving DecidableEq

structure AbsOrRelAddr.IsSet where
  absaddr : Bool := false
  reladdr : Bool := false
  deriving DecidableEq

/-- Absolute or relative address. -/
structure AbsOrRelAddr where
  absaddr : AbsAddr := 0
  reladdr : RelAddr := {}
  isset : AbsOrRelAddr.IsSet := {}
  deriving DecidableEq

structure Breakpoint where
  addr : AbsOrRelAddr := {}
  count : I64 := 0
  deriving DecidableEq

structure ModuleInfo where
  addr : RelAddr := {}
  base : AbsAddr := 0
  deriving DecidableEq

/-- The block of the last stop; `moduleinfo` is `none` while its bit is unset. -/
structure CodeBlock where
  addr : AbsAddr := 0
  bytes : CxxString := []
  moduleinfo : Option ModuleInfo := none
  deriving DecidableEq

/-- Register names with the bytes of their values. -/
abbrev RegisterContext := StdMap CxxString CxxString

def OffsetOrSymbol.setOffset (o : OffsetOrSymbol) (val : Offset) : OffsetOrSymbol :=
  { o with offset := val, isset := { o.isset with offset := true } }

def AbsOrRelAddr.setAbsaddr (a : AbsOrRelAddr) (val : AbsAddr) : AbsOrRelAddr :=
  { a with absaddr := val, isset := { a.isset with absaddr := true } }

def AbsOrRelAddr.setReladdr (a : AbsOrRelAddr) (val : RelAddr) : AbsOrRelAddr :=
  { a with reladdr := val, isset := { a.isset with reladdr := true } }

/-! ## Equality and order -/

/-- `OffsetOrSymbol::operator==`. -/
def OffsetOrSymbol.eq (o rhs : OffsetOrSymbol) : Bool :=
  if o.isset.offset ≠ rhs.isset.offset then false
  else if o.isset.offset ∧ o.offset ≠ rhs.offset then false
  else if o.isset.symbol ≠ rhs.isset.symbol then false
  else if o.isset.symbol ∧ o.symbol ≠ rhs.symbol then false
  else true

/-- `RelAddr::operator==`. -/
def RelAddr.eq (r rhs : RelAddr) : Bool :=
  if r.modulename ≠ rhs.modulename then false
  else if !r.offset.eq rhs.offset then false
  else true

/-- `AbsOrRelAddr::operator==`. -/
def AbsOrRelAddr.eq (a rhs : AbsOrRelAddr) : Bool :=
  if a.isset.absaddr ≠ rhs.isset.absaddr then false
  else if a.isset.absaddr ∧ a.absaddr ≠ rhs.absaddr then false
  else if a.isset.reladdr ≠ rhs.isset.reladdr then false
  else if a.isset.reladdr ∧ !a.reladdr.eq rhs.reladdr then false
  else true

/-- `OffsetOrSymbol::operator<`. -/
def OffsetOrSymbol.lt (a o : OffsetOrSymbol) : Bool :=
  if a.offset ≠ o.offset then a.offset.slt o.offset
  else if a.symbol ≠ o.symbol then a.symbol < o.symbol
  else false

/-- `RelAddr::operator<`. -/
def RelAddr.lt (a r : RelAddr) : Bool :=
  if a.modulename ≠ r.modulename then a.modulename < r.modulename
  else if !a.offset.eq r.offset then a.offset.lt r.offset
  else false

/-- `AbsOrRelAddr::operator<`. -/
def AbsOrRelAddr.lt (b a : AbsOrRelAddr) : Bool :=
  if b.absaddr ≠ a.absaddr then b.absaddr.slt a.absaddr
  else if !b.reladdr.eq a.reladdr then b.reladdr.lt a.reladdr
  else false

/-- `Breakpoint::operator<`. -/
def Breakpoint.lt (a b : Breakpoint) : Bool :=
  if !a.addr.eq b.addr then a.addr.lt b.addr
  else if a.count ≠ b.count then a.count.slt b.count
  else false

/-! ## Decoded values -/

/-- Every unset field has its default. -/
structure OffsetOrSymbol.Decoded (o : OffsetOrSymbol) : Prop where
  offset : o.isset.offset = false → o.offset = 0
  symbol : o.isset.symbol = false → o.symbol = []

/-- Every unset field has its default. -/
def RelAddr.Decoded (r : RelAddr) : Prop :=
  r.offset.Decoded

/-- Every unset field has its default. -/
structure AbsOrRelAddr.Decoded (a : AbsOrRelAddr) : Prop where
  absaddr : a.isset.absaddr = false → a.absaddr = 0
  reladdr : a.isset.reladdr = false → a.reladdr = {}
  decoded : a.reladdr.Decoded

theorem OffsetOrSymbol.decoded_default : ({} : OffsetOrSymbol).Decoded :=
  ⟨fun _ => rfl, fun _ => rfl⟩

theorem OffsetOrSymbol.Decoded.setOffset {o : OffsetOrSymbol} (h : o.Decoded) (val : Offset) :
    (o.setOffset val).Decoded :=
  ⟨fun h => by simp [OffsetOrSymbol.setOffset] at h, h.symbol⟩

/-- On decoded values `operator==` implies equal raw values. -/
theorem OffsetOrSymbol.Decoded.raw_eq {o p : OffsetOrSymbol} (ho : o.Decoded) (hp : p.Decoded)
    (h : o.eq p = true) : o.offset = p.offset ∧ o.symbol = p.symbol := by
  unfold OffsetOrSymbol.eq at h
  split_ifs at h with h₁ h₂ h₃ h₄
  rw [not_not] at h₁ h₃
  constructor
  · cases hb : o.isset.offset with
    | true => exact by_contra fun hne => h₂ ⟨hb, hne⟩
    | false => rw [ho.offset hb, hp.offset (h₁ ▸ hb)]
  · cases hb : o.isset.symbol with
    | true => exact by_contra fun hne => h₄ ⟨hb, hne⟩
    | false => rw [ho.symbol hb, hp.symbol (h₃ ▸ hb)]

/-- The raw values of a relative address, in the order `operator<` compares them. -/
def RelAddr.raw (r : RelAddr) : CxxString ×ₗ ℤ ×ₗ CxxString :=
  toLex (r.modulename, toLex (r.offset.offset.toInt, r.offset.symbol))

theorem OffsetOrSymbol.lt_iff (o p : OffsetOrSymbol) :
    o.lt p = true ↔
      toLex (o.offset.toInt, o.symbol) < toLex (p.offset.toInt, p.symbol) := by
  unfold OffsetOrSymbol.lt
  rw [Prod.Lex.toLex_lt_toLex]
  by_cases h₁ : o.offset = p.offset
  · by_cases h₂ : o.symbol = p.symbol <;> simp [h₁, h₂]
  · have hi : o.offset.toInt ≠ p.offset.toInt := fun h => h₁ (BitVec.eq_of_toInt_eq h)
    simp [h₁, hi, BitVec.slt]

/-- On decoded values `operator<` is the lexicographic order of the raw values. -/
theorem RelAddr.lt_iff {r s : RelAddr} (hr : r.Decoded) (hs : s.Decoded) :
    r.lt s = true ↔ r.raw < s.raw := by
  unfold RelAddr.lt RelAddr.raw
  rw [Prod.Lex.toLex_lt_toLex]
  by_cases hm : r.modulename = s.modulename
  · simp only [hm, ne_eq, not_true_eq_false, if_false, lt_irrefl, true_and, false_or]
    cases he : r.offset.eq s.offset with
    | true =>
      obtain ⟨h₁, h₂⟩ := OffsetOrSymbol.Decoded.raw_eq hr hs he
      simp [h₁, h₂]
    | false => simpa using OffsetOrSymbol.lt_iff r.offset s.offset
  · simp [hm]

/-- Decoded relative addresses, the keys of `deferred_breakpoints`. -/
def DeferredKey := { r : RelAddr // r.Decoded }
  deriving DecidableEq

namespace DeferredKey

instance : LT DeferredKey :=
  ⟨fun r s => r.1.lt s.1 = true⟩

instance : DecidableLT DeferredKey := fun r s =>
  inferInstanceAs (Decidable (r.1.lt s.1 = true))

theorem lt_iff {r s : DeferredKey} : r < s ↔ r.1.raw < s.1.raw :=
  RelAddr.lt_iff r.2 s.2

instance : IsStrictWeakOrder DeferredKey (· < ·) where
  irrefl r h := lt_irrefl _ (lt_iff.mp h)
  trans r s t h₁ h₂ := lt_iff.mpr ((lt_iff.mp h₁).trans (lt_iff.mp h₂))
  incomp_trans r s t h₁ h₂ := by
    simp only [lt_iff, not_lt] at h₁ h₂ ⊢
    exact ⟨h₂.1.trans h₁.1, h₁.2.trans h₂.2⟩

/-- Two keys are the same key if their raw values are equal. -/
theorem sameKey_iff {r s : DeferredKey} : SameKey r s ↔ r.1.raw = s.1.raw := by
  simp only [SameKey, IncompRel, lt_iff, not_lt]
  exact ⟨fun h => le_antisymm h.2 h.1, fun h => ⟨h.ge, h.le⟩⟩

theorem modulename_eq_of_sameKey {r s : DeferredKey} (h : SameKey r s) :
    r.1.modulename = s.1.modulename :=
  congrArg Prod.fst (sameKey_iff.mp h)

end DeferredKey

/-- Breakpoints as the server decodes them. -/
def WireBreakpoint := { bp : Breakpoint // bp.addr.Decoded }
  deriving DecidableEq

/-- The relative address of a decoded breakpoint, as a key. -/
def WireBreakpoint.reladdr (bp : WireBreakpoint) : DeferredKey :=
  ⟨bp.1.addr.reladdr, bp.2.decoded⟩

/-- A breakpoint at an absolute address. -/
def absBreakpoint (addr : AbsAddr) (count : I64) : WireBreakpoint :=
  let a : AbsOrRelAddr := {}
  ⟨{ addr := a.setAbsaddr addr, count := count },
    ⟨nofun, fun _ => rfl, OffsetOrSymbol.decoded_default⟩⟩

/-- A breakpoint at an offset into a module. -/
def relBreakpoint (modulename : CxxString) (offset : Offset) (count : I64) : WireBreakpoint :=
  let a : AbsOrRelAddr := {}
  let o : OffsetOrSymbol := {}
  ⟨{ addr := a.setReladdr { modulename := modulename, offset := o.setOffset offset },
      count := count },
    ⟨fun _ => rfl, nofun, OffsetOrSymbol.decoded_default.setOffset offset⟩⟩

/-! ## Addresses as keys -/

instance : IsStrictWeakOrder AppPc (· < ·) where
  irrefl a h := BitVec.lt_irrefl a h
  trans a b c := BitVec.lt_trans
  incomp_trans a b c h₁ h₂ := by
    simp only [BitVec.not_lt] at h₁ h₂ ⊢
    exact ⟨BitVec.le_trans h₂.1 h₁.1, BitVec.le_trans h₁.2 h₂.2⟩

theorem sameKey_appPc {a b : AppPc} : SameKey a b ↔ a = b := by
  simp only [SameKey, IncompRel, BitVec.not_lt]
  constructor
  · intro h
    exact BitVec.le_antisymm h.2 h.1
  · rintro rfl
    exact ⟨BitVec.le_refl a, BitVec.le_refl a⟩

instance : IsStrictWeakOrder CxxString (· < ·) where
  irrefl := lt_irrefl
  trans _ _ _ := lt_trans
  incomp_trans a b c h₁ h₂ := by
    simp only [not_lt] at h₁ h₂ ⊢
    exact ⟨h₂.1.trans h₁.1, h₁.2.trans h₂.2⟩

end ConcreteEval
