import ConcreteEval.Activation

/-!
# Deferred breakpoints that do not interfere

Two breakpoints that wait for their modules should not interfere if `operator==` tells their
addresses apart : adding one does not make `addBreakpoint` reject the other, and deleting one leaves
the entry of the other alone (`World.Independent`). The deferred table looks its keys up by
`operator<`, which compares the values whether they are marked set or not. So the two addresses are
independent just if one of these values differs (`World.independent_iff`), and an unset offset
interferes with the offset 0.
-/

namespace ConcreteEval

/-- The values of the two addresses differ, whatever is marked set. -/
def RelAddr.ValuesDiffer (r s : RelAddr) : Prop :=
  r.modulename ≠ s.modulename ∨ r.offset.offset ≠ s.offset.offset ∨
    r.offset.symbol ≠ s.offset.symbol

theorem DeferredKey.not_sameKey_iff {r s : DeferredKey} :
    ¬SameKey r s ↔ r.1.ValuesDiffer s.1 := by
  rw [sameKey_iff]
  simp only [RelAddr.raw, RelAddr.ValuesDiffer, toLex_inj, Prod.mk.injEq, BitVec.toInt_inj,
    not_and_or]

namespace Tables

variable {t : Tables} {modules : List Module} {bp bp₁ bp₂ : WireBreakpoint}

/-- A breakpoint that waits is accepted if its key is free, and takes it. -/
theorem added_waits (h : bp.Waits modules) :
    t.added modules bp =
      if t.deferred.find? bp.reladdr = none then
        (true, { t with deferred := t.deferred.assign bp.reladdr bp.1.count })
      else (false, t) := by
  unfold added add
  rw [place_waits h]
  by_cases hfree : t.deferred.find? bp.reladdr = none <;> simp [hfree]

/-- The tables after a deletion; a rejected one changes nothing. -/
def deleted (modules : List Module) (bp : WireBreakpoint) (t : Tables) : Tables :=
  (t.delete modules bp).toOption.getD t

/-- A breakpoint that waits frees its key. -/
theorem deleted_waits (h : bp.Waits modules) :
    (t.deleted modules bp).deferred =
      if t.deferred.find? bp.reladdr = none then t.deferred else t.deferred.erase bp.reladdr := by
  unfold deleted delete
  rw [place_waits h]
  by_cases hfree : t.deferred.find? bp.reladdr = none <;> simp [hfree, Except.toOption]

/-- Different keys do not see each other's additions. -/
theorem find?_added_of_not (h : bp₁.Waits modules) (hne : ¬SameKey bp₁.reladdr bp₂.reladdr) :
    (t.added modules bp₁).2.deferred.find? bp₂.reladdr = t.deferred.find? bp₂.reladdr := by
  rw [added_waits h]
  split_ifs
  · exact StdMap.find?_assign_of_not fun h => hne h.symm
  · rfl

/-- Nor each other's deletions. -/
theorem find?_deleted_of_not (h : bp₁.Waits modules) (hne : ¬SameKey bp₁.reladdr bp₂.reladdr) :
    (t.deleted modules bp₁).deferred.find? bp₂.reladdr = t.deferred.find? bp₂.reladdr := by
  rw [deleted_waits h]
  split_ifs
  · rfl
  · exact StdMap.find?_erase_of_not fun h => hne h.symm

end Tables

namespace World

variable (b : Build)

/-- The call of `delBreakpoint`. -/
def deletes (w : World) (bp : WireBreakpoint) : Option World :=
  (w.alone b {} .server (.delBreakpoint bp)).map Prod.snd

/-- `bp₁` does not interfere with `bp₂`. -/
structure Independent (w : World) (bp₁ bp₂ : WireBreakpoint) : Prop where
  accepts : ∀ x w₁, w.adds b bp₁ = some (x, w₁) → (∃ w₂, w.adds b bp₂ = some (true, w₂)) →
    ∃ w₂, w₁.adds b bp₂ = some (true, w₂)
  keeps : ∀ w₁, w.deletes b bp₁ = some w₁ →
    w₁.globals.deferredBreakpoints.find? bp₂.reladdr =
      w.globals.deferredBreakpoints.find? bp₂.reladdr

variable {b} {w w₁ : World} {bp bp₁ bp₂ : WireBreakpoint}

variable (bp) in
theorem deletes_eq (hm : w.mutex = none) :
    ∃ w', w.deletes b bp = some w' ∧
      w'.globals.tables = w.globals.tables.deleted w.modules bp := by
  have hdel := serves_delBreakpoint {} b hm bp
  unfold deletes Tables.deleted
  cases ht : w.globals.tables.delete w.modules bp with
  | ok t =>
    rw [ht] at hdel
    obtain ⟨w', hal, l, rfl⟩ := hdel
    exact ⟨{ w.stores t with log := l }, by rw [hal]; rfl, rfl⟩
  | error msg =>
    rw [ht] at hdel
    obtain ⟨w', hal, l, rfl⟩ := hdel
    exact ⟨{ w with log := l }, by rw [hal]; rfl, rfl⟩

/-- A breakpoint that waits is accepted just if its key is free. -/
theorem adds_true_iff (hm : w.mutex = none) (h : bp.Waits w.modules) :
    (∃ w', w.adds b bp = some (true, w')) ↔
      w.globals.deferredBreakpoints.find? bp.reladdr = none := by
  obtain ⟨w', hadds, -⟩ := adds_eq (b := b) bp hm
  rw [hadds, Tables.added_waits h]
  by_cases hfree : w.globals.deferredBreakpoints.find? bp.reladdr = none <;> simp [hfree]

/-- Where the keys are the same, the first breakpoint stands in the way of the second one, or takes
it away. -/
theorem not_independent_of_sameKey (hm : w.mutex = none) (h₁ : bp₁.Waits w.modules)
    (h₂ : bp₂.Waits w.modules) (hsame : SameKey bp₁.reladdr bp₂.reladdr) :
    ¬w.Independent b bp₁ bp₂ := by
  intro hind
  have hfind : w.globals.deferredBreakpoints.find? bp₁.reladdr =
      w.globals.deferredBreakpoints.find? bp₂.reladdr := StdMap.find?_congr _ hsame
  by_cases hfree : w.globals.deferredBreakpoints.find? bp₂.reladdr = none
  · obtain ⟨w₁, hadds, htables, hm₁, hmodules⟩ := adds_eq (b := b) bp₁ hm
    have hacc := hind.accepts _ _ hadds ((adds_true_iff hm h₂).mpr hfree)
    rw [adds_true_iff hm₁ (hmodules ▸ h₂)] at hacc
    have hdeferred := congrArg Tables.deferred htables
    rw [Tables.added_waits h₁] at hdeferred
    simp only [Globals.tables_deferred, hfind, hfree, if_true] at hdeferred
    rw [hdeferred, StdMap.find?_congr _ hsame.symm, StdMap.find?_assign_self] at hacc
    cases hacc
  · obtain ⟨w₁, hdels, htables⟩ := deletes_eq (b := b) bp₁ hm
    have hkeep := hind.keeps _ hdels
    have hdeferred := congrArg Tables.deferred htables
    rw [Tables.deleted_waits h₁] at hdeferred
    simp only [Globals.tables_deferred, hfind, hfree, if_false] at hdeferred
    rw [hdeferred, StdMap.find?_congr _ hsame.symm, StdMap.find?_erase_self] at hkeep
    exact hfree hkeep.symm

theorem independent_of_not_sameKey (hm : w.mutex = none) (h₁ : bp₁.Waits w.modules)
    (h₂ : bp₂.Waits w.modules) (hne : ¬SameKey bp₁.reladdr bp₂.reladdr) :
    w.Independent b bp₁ bp₂ := by
  constructor
  · intro x w₁ hw₁ hacc
    obtain ⟨w', hadds, htables, hm₁, hmodules⟩ := adds_eq (b := b) bp₁ hm
    obtain ⟨-, rfl⟩ := Prod.mk.inj (Option.some.inj (hadds.symm.trans hw₁))
    rw [adds_true_iff hm h₂] at hacc
    rw [adds_true_iff hm₁ (hmodules ▸ h₂)]
    have hfind := Tables.find?_added_of_not (t := w.globals.tables) h₁ hne
    rw [← htables] at hfind
    exact hfind.trans hacc
  · intro w₁ hw₁
    obtain ⟨w', hdels, htables⟩ := deletes_eq (b := b) bp₁ hm
    obtain rfl := Option.some.inj (hdels.symm.trans hw₁)
    have hfind := Tables.find?_deleted_of_not (t := w.globals.tables) h₁ hne
    rw [← htables] at hfind
    exact hfind

/-- Two breakpoints whose addresses `operator==` tells apart are independent just if the values of
the addresses differ, that is if they are two keys of the deferred table. -/
theorem independent_iff (hm : w.mutex = none) (h₁ : bp₁.Waits w.modules)
    (h₂ : bp₂.Waits w.modules) (hne : bp₁.reladdr.1.eq bp₂.reladdr.1 = false) :
    (w.Independent b bp₁ bp₂ ↔ bp₁.reladdr.1.ValuesDiffer bp₂.reladdr.1) ∧
      ((SameKey bp₁.reladdr bp₂.reladdr → bp₁.reladdr.1.eq bp₂.reladdr.1 = true) ↔
        bp₁.reladdr.1.ValuesDiffer bp₂.reladdr.1) := by
  rw [← DeferredKey.not_sameKey_iff, hne]
  refine ⟨⟨?_, independent_of_not_sameKey hm h₁ h₂⟩, by simp⟩
  intro hind hsame
  exact not_independent_of_sameKey hm h₁ h₂ hsame hind

end World

/-- A breakpoint relative to a module, with neither an offset nor a symbol. -/
def bareBreakpoint (modulename : CxxString) (count : I64) : WireBreakpoint :=
  let a : AbsOrRelAddr := {}
  ⟨{ addr := a.setReladdr { modulename := modulename }, count := count },
    ⟨fun _ => rfl, nofun, OffsetOrSymbol.decoded_default⟩⟩

/-- Breakpoints at `lib + 8` and `lib + 16` wait for `lib`, and one at 40 is active. -/
def twoWaiting : Target :=
  .after .debug [] [.call (.addBreakpoint (relBreakpoint "lib".toList 8 1)) {},
    .call (.addBreakpoint (relBreakpoint "lib".toList 16 2)) {},
    .call (.addBreakpoint (absBreakpoint 40 3)) {}]

theorem independent_iff_lib :
    twoWaiting.world.globals.deferredBreakpoints.entries.length = 2 ∧
      twoWaiting.world.Independent .debug (relBreakpoint "lib".toList 8 1)
        (relBreakpoint "lib".toList 16 1) ∧
      (SameKey (relBreakpoint "lib".toList 8 1).reladdr (relBreakpoint "lib".toList 16 1).reladdr →
        (relBreakpoint "lib".toList 8 1).reladdr.1.eq
          (relBreakpoint "lib".toList 16 1).reladdr.1 = true) := by
  have hdiffer : (relBreakpoint "lib".toList 8 1).reladdr.1.ValuesDiffer
      (relBreakpoint "lib".toList 16 1).reladdr.1 := Or.inr (Or.inl (by decide))
  have hwaits : (relBreakpoint "lib".toList 8 1).Waits twoWaiting.world.modules := ⟨rfl, rfl, rfl⟩
  have hwaits' : (relBreakpoint "lib".toList 16 1).Waits twoWaiting.world.modules :=
    ⟨rfl, rfl, rfl⟩
  obtain ⟨hind, hkeys⟩ := World.independent_iff (b := .debug) rfl hwaits hwaits' (by decide)
  exact ⟨rfl, hind.mpr hdiffer, hkeys.mpr hdiffer⟩

/-- `lib` with no offset and `lib` at the offset 0 interfere, though `operator==` tells them
apart. -/
theorem not_independent :
    ¬∀ (t : Target) (bp₁ bp₂ : WireBreakpoint), t.ReachedBy .debug (fun _ _ => True) →
      t.waiting = none → bp₁.Waits t.world.modules → bp₂.Waits t.world.modules →
      bp₁.reladdr.1.eq bp₂.reladdr.1 = false → t.world.Independent .debug bp₁ bp₂ := by
  intro h
  have hreached : (Target.after .debug [] []).ReachedBy .debug fun _ _ => True :=
    Target.reachedBy_after .debug [] fun _ _ _ => trivial
  refine World.not_independent_of_sameKey (b := .debug) rfl ⟨rfl, rfl, rfl⟩ ⟨rfl, rfl, rfl⟩ ?_
    (h (Target.after .debug [] []) (bareBreakpoint "lib".toList 1)
      (relBreakpoint "lib".toList 0 1) hreached rfl ⟨rfl, rfl, rfl⟩ ⟨rfl, rfl, rfl⟩ (by decide))
  exact DeferredKey.sameKey_iff.mpr rfl

end ConcreteEval
