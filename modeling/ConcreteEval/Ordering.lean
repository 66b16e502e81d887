import ConcreteEval.Alone
import ConcreteEval.Decoding
import ConcreteEval.WeakOrder

/-!
# The orders of the Thrift types

Each `operator<` of `helpers.cpp` chooses the field to compare by `operator!=`, which looks at the
bits, and compares the raw values. On what reading produces `operator==` is equality
(`AbsOrRelAddr.Decoded.eq_iff`), and `RelAddr` and `AbsOrRelAddr` are ordered by their raw values :
where `operator!=` sees a difference in the bits alone, `operator<` on the same field finds none. So
the maps and sets of `RelAddr` keys are well defined (`deferred_order_lawful`).

In `Breakpoint` the address is not the last field. Two addresses with the same values but not the
same bits keep the counts from being compared. That breaks the order if one of the addresses
comes with two counts (`breakpoint_order_lawful_iff`), which it never does in `getBreakpoints`.
-/

namespace ConcreteEval

/-! ## Equality -/

theorem OffsetOrSymbol.Decoded.eq_iff {o p : OffsetOrSymbol} (ho : o.Decoded) (hp : p.Decoded) :
    o.eq p = true ↔ o = p := by
  constructor
  · intro h
    obtain ⟨hoffset, hsymbol⟩ := Decoded.raw_eq ho hp h
    obtain ⟨offset, symbol, hasOffset, hasSymbol⟩ := o
    obtain ⟨offset', symbol', hasOffset', hasSymbol'⟩ := p
    simp only [OffsetOrSymbol.eq] at h hoffset hsymbol
    split_ifs at h with h₁ h₂ h₃ h₄
    rw [not_not] at h₁ h₃
    simp [hoffset, hsymbol, h₁, h₃]
  · rintro rfl
    simp [OffsetOrSymbol.eq]

theorem RelAddr.Decoded.eq_iff {r s : RelAddr} (hr : r.Decoded) (hs : s.Decoded) :
    r.eq s = true ↔ r = s := by
  obtain ⟨modulename, offset⟩ := r
  obtain ⟨modulename', offset'⟩ := s
  have hoffset := OffsetOrSymbol.Decoded.eq_iff hr hs
  by_cases hm : modulename = modulename'
  · cases he : offset.eq offset' <;> simp_all [RelAddr.eq]
  · simp [RelAddr.eq, hm]

/-- On decoded values `operator==` is equality. -/
theorem AbsOrRelAddr.Decoded.eq_iff {a b : AbsOrRelAddr} (ha : a.Decoded) (hb : b.Decoded) :
    a.eq b = true ↔ a = b := by
  have hrel := RelAddr.Decoded.eq_iff ha.decoded hb.decoded
  constructor
  · intro h
    unfold AbsOrRelAddr.eq at h
    split_ifs at h with h₁ h₂ h₃ h₄
    rw [not_not] at h₁ h₃
    have habs : a.absaddr = b.absaddr := by
      cases hbit : a.isset.absaddr with
      | true => exact by_contra fun hne => h₂ ⟨hbit, hne⟩
      | false => rw [ha.absaddr hbit, hb.absaddr (h₁ ▸ hbit)]
    have hreladdr : a.reladdr = b.reladdr := by
      cases hbit : a.isset.reladdr with
      | true => exact hrel.mp (by simpa [hbit] using h₄)
      | false => rw [ha.reladdr hbit, hb.reladdr (h₃ ▸ hbit)]
    obtain ⟨absaddr, reladdr, hasAbsaddr, hasReladdr⟩ := a
    obtain ⟨absaddr', reladdr', hasAbsaddr', hasReladdr'⟩ := b
    simp_all
  · rintro rfl
    simp [AbsOrRelAddr.eq, hrel]

/-! ## Order -/

/-- The raw values of an address, in the order `operator<` compares them. -/
def AbsOrRelAddr.raw (a : AbsOrRelAddr) : ℤ ×ₗ CxxString ×ₗ ℤ ×ₗ CxxString :=
  toLex (a.absaddr.toInt, a.reladdr.raw)

/-- On decoded values `operator<` is the lexicographic order of the raw values. -/
theorem AbsOrRelAddr.lt_iff {a b : AbsOrRelAddr} (ha : a.Decoded) (hb : b.Decoded) :
    a.lt b = true ↔ a.raw < b.raw := by
  unfold AbsOrRelAddr.lt AbsOrRelAddr.raw
  rw [Prod.Lex.toLex_lt_toLex]
  by_cases habs : a.absaddr = b.absaddr
  · simp only [habs, ne_eq, not_true_eq_false, if_false, lt_irrefl, true_and, false_or]
    cases he : a.reladdr.eq b.reladdr with
    | true =>
      rw [(RelAddr.Decoded.eq_iff ha.decoded hb.decoded).mp he]
      simp
    | false => simpa using RelAddr.lt_iff ha.decoded hb.decoded
  · have hi : a.absaddr.toInt ≠ b.absaddr.toInt := fun h => habs (BitVec.eq_of_toInt_eq h)
    simp [habs, hi, BitVec.slt]

/-- Breakpoints at different addresses are ordered by the raw values of these, those at one
address by their counts. -/
theorem Breakpoint.lt_iff {a b : Breakpoint} (ha : a.addr.Decoded) (hb : b.addr.Decoded) :
    a.lt b = true ↔ a.addr ≠ b.addr ∧ a.addr.raw < b.addr.raw ∨
      a.addr = b.addr ∧ a.count.toInt < b.count.toInt := by
  unfold Breakpoint.lt
  by_cases haddr : a.addr = b.addr
  · have he : b.addr.eq b.addr = true := (AbsOrRelAddr.Decoded.eq_iff hb hb).mpr rfl
    by_cases hcount : a.count = b.count
    · simp [he, haddr, hcount]
    · simp [he, haddr, hcount, BitVec.slt]
  · have he : a.addr.eq b.addr = false :=
      Bool.eq_false_iff.mpr (mt (AbsOrRelAddr.Decoded.eq_iff ha hb).mp haddr)
    simp [he, haddr, AbsOrRelAddr.lt_iff ha hb]

/-! ## Keys -/

/-- What `event_module_loaded` collects is a set of the keys of the module, and erasing these erases
its entries. -/
structure CollectsModule (m : Module) (d : StdMap DeferredKey SizeT) : Prop where
  sorted : (World.collect m d.entries []).Pairwise (· < ·)
  mem : ∀ k, (∃ j ∈ World.collect m d.entries [], SameKey j k) ↔
    d.find? k ≠ none ∧ k.1.modulename = m.preferredName
  erase : (World.collect m d.entries []).foldl StdMap.erase d =
    d.filter fun ra => ra.1.modulename ≠ m.preferredName

theorem collectsModule (m : Module) (d : StdMap DeferredKey SizeT) : CollectsModule m d where
  sorted := World.pairwise_collect List.Pairwise.nil
  mem k := by
    constructor
    · rintro ⟨j, hj, hjk⟩
      obtain ⟨p, hp, rfl, hname⟩ :=
        (World.exists_of_mem_collect hj).resolve_left List.not_mem_nil
      refine ⟨?_, (DeferredKey.modulename_eq_of_sameKey hjk).symm.trans hname⟩
      rw [← d.find?_congr hjk, StdMap.find?_of_mem hp]
      simp
    · rintro ⟨hk, hname⟩
      obtain ⟨n, hn⟩ := Option.ne_none_iff_exists'.mp hk
      obtain ⟨p, hp, hkp, -⟩ := StdMap.exists_mem_of_find? hn
      have hpname := (DeferredKey.modulename_eq_of_sameKey hkp).symm.trans hname
      obtain ⟨j, hj, hjp⟩ := World.exists_mem_collect hp hpname (s := [])
      exact ⟨j, hj, hjp.trans hkp.symm⟩
  erase := World.foldl_erase_collect m d

/-- Reading a relative address produces the decoded ones, `operator<` is a strict weak order on
them, and the maps and sets with these keys are well defined. -/
theorem deferred_order_lawful :
    Set.range (RelAddr.read {}) = {r | r.Decoded} ∧
      StrictWeakOrderOn (fun r s : RelAddr => r.lt s = true) (Set.range (RelAddr.read {})) ∧
      ∀ d : StdMap DeferredKey SizeT, d.Lawful ∧ ∀ m, CollectsModule m d := by
  have hrange : Set.range (RelAddr.read {}) = {r | r.Decoded} :=
    Set.ext fun r => RelAddr.exists_read_iff
  refine ⟨hrange, ?_, fun d => ⟨d.lawful, fun m => collectsModule m d⟩⟩
  rw [hrange]
  exact .of_key RelAddr.raw fun r hr s hs => RelAddr.lt_iff hr hs

/-! ## Breakpoints -/

/-- The values of the two addresses are the same, whatever is marked set. -/
def AbsOrRelAddr.SameValues (a b : AbsOrRelAddr) : Prop :=
  a.absaddr = b.absaddr ∧ a.reladdr.modulename = b.reladdr.modulename ∧
    a.reladdr.offset.offset = b.reladdr.offset.offset ∧
    a.reladdr.offset.symbol = b.reladdr.offset.symbol

theorem AbsOrRelAddr.raw_eq_iff {a b : AbsOrRelAddr} : a.raw = b.raw ↔ a.SameValues b := by
  simp only [raw, RelAddr.raw, SameValues, toLex_inj, Prod.mk.injEq, BitVec.toInt_inj]

/-- Addresses are always well ordered. A set of breakpoints is, unless one of its addresses comes
with two counts, and another with the same values but not the same fields set. -/
theorem breakpoint_order_lawful_iff {S : Set Breakpoint}
    (hS : S ⊆ Set.range (Breakpoint.read {})) :
    StrictWeakOrderOn (fun a b : AbsOrRelAddr => a.lt b = true) (Set.range (AbsOrRelAddr.read {})) ∧
      (StrictWeakOrderOn (fun a b : Breakpoint => a.lt b = true) S ↔
        ∀ a ∈ S, ∀ b ∈ S, a.addr ≠ b.addr → a.addr.SameValues b.addr →
          ∀ c ∈ S, c.addr = a.addr → c.count = a.count) := by
  constructor
  · refine .of_key AbsOrRelAddr.raw fun a ha b hb => ?_
    exact AbsOrRelAddr.lt_iff (AbsOrRelAddr.exists_read_iff.mp ha)
      (AbsOrRelAddr.exists_read_iff.mp hb)
  · have hdecoded : ∀ bp ∈ S, bp.addr.Decoded := fun bp hbp =>
      Breakpoint.exists_read_iff.mp (hS hbp)
    rw [strictWeakOrderOn_iff_of_finer Breakpoint.addr AbsOrRelAddr.raw (fun bp => bp.count.toInt)
      fun a ha b hb => Breakpoint.lt_iff (hdecoded a ha) (hdecoded b hb)]
    simp only [AbsOrRelAddr.raw_eq_iff, BitVec.toInt_inj]

/-- The breakpoints that `getBreakpoints` lists are well ordered. -/
theorem breakpoint_order_lawful_listed :
    StrictWeakOrderOn (fun a b : Breakpoint => a.lt b = true) (Set.range listedBreakpoint) := by
  have hread : Set.range listedBreakpoint ⊆ Set.range (Breakpoint.read {}) := by
    rintro _ ⟨p, rfl⟩
    exact Breakpoint.exists_read_iff.mpr (AbsOrRelAddr.decoded_default.setAbsaddr p.1)
  refine (breakpoint_order_lawful_iff hread).2.mpr ?_
  rintro _ ⟨p, rfl⟩ _ ⟨q, rfl⟩ hne ⟨habs, -⟩
  have habs : p.1 = q.1 := habs
  exact absurd (by simp [listedBreakpoint, habs]) hne

/-- The absolute address 0 with two counts, and a breakpoint without an address. -/
theorem not_breakpoint_order_lawful :
    ¬(StrictWeakOrderOn (fun a b : AbsOrRelAddr => a.lt b = true)
        (Set.range (AbsOrRelAddr.read {})) ∧
      StrictWeakOrderOn (fun a b : Breakpoint => a.lt b = true)
        (Set.range (Breakpoint.read {}))) := by
  rintro ⟨-, h⟩
  have hincomp := h.incomp_trans _ ⟨[(1, .struct [(1, .i64 0)]), (2, .i64 1)], rfl⟩ _ ⟨[], rfl⟩ _
    ⟨[(1, .struct [(1, .i64 0)]), (2, .i64 2)], rfl⟩ ⟨by decide, by decide⟩ ⟨by decide, by decide⟩
  exact hincomp.1 (by decide)

end ConcreteEval
