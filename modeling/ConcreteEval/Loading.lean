import ConcreteEval.Book

/-!
# The load of a module

What waits for a module is not checked until the module is loaded : `addBreakpoint` takes any
offset, any symbol and neither of them for a module that it does not find. The load event then
resolves the address on a thread of the application, where an exception has nobody to catch it and
a failed assertion ends the process.

`World.CompletesLoad` is that the load event comes to its end. It does exactly if everything that
waits for the module stands for an address inside it (`RelAddr.LiesIn`,
`World.completesLoad_iff`). Where it does, what waited for the module is gone, what waits for
others is as it was, and each address that was waited for is active (`World.LoadsAll`).
-/

namespace ConcreteEval

/-- The address is inside the module, its end included : by its offset, or else by a symbol that
the module exports. -/
def RelAddr.LiesIn (r : RelAddr) (m : Module) : Prop :=
  (r.offset.isset.offset = true ∧ m.Spans (m.start + r.offset.offset)) ∨
    r.offset.isset.offset = false ∧ r.offset.isset.symbol = true ∧
      m.drGetProcAddress r.offset.symbol.cStr ≠ 0 ∧
      m.Spans (m.drGetProcAddress r.offset.symbol.cStr)

theorem RelAddr.liesIn_iff {r : RelAddr} {m : Module} :
    r.LiesIn m ↔ ∃ x, m.resolve r = .ok x ∧ m.Spans x := by
  unfold LiesIn Module.resolve
  by_cases ho : r.offset.isset.offset = true
  · simp [ho]
  · have ho' : r.offset.isset.offset = false := by simpa using ho
    by_cases hs : r.offset.isset.symbol = true
    · by_cases hsym : m.drGetProcAddress r.offset.symbol.cStr = 0#64
      · simp [ho', hs, hsym]
      · simp [ho', hs, hsym]
    · simp [ho', hs]

namespace World

variable {b : Build} {env : Env} {u : ℕ} {m : Module} {w w' : World}
  {x : Prog.Ending Halt Result}

/-- The load event of `m`, on the thread `u`, comes to its end : nothing is thrown, and no
assertion fails. -/
def CompletesLoad (w : World) (b : Build) (env : Env) (u : ℕ) (m : Module) : Prop :=
  ∃ w', w.alone b env (.app u) (.eventModuleLoaded m) = some (.returned .void, w')

/-- The load event comes to its end exactly if all that waits for the module is inside it. -/
theorem completesLoad_iff (hm : w.mutex = none) (hs : w.suspended = false) :
    w.CompletesLoad b env u m ↔ ∀ p ∈ w.globals.deferredBreakpoints.entries,
      p.1.1.modulename = m.preferredName → p.1.1.LiesIn m := by
  have hload := alone_eventModuleLoaded env b u m hm hs
  have hfits := Tables.isSome_load (m := m) (t := w.globals.tables)
  simp only [RelAddr.liesIn_iff]
  unfold CompletesLoad
  cases ht : w.globals.tables.load m with
  | some t =>
    rw [ht] at hload hfits
    obtain ⟨w', hal, -⟩ := hload
    exact iff_of_true ⟨w', hal⟩ (hfits.mp rfl)
  | none =>
    rw [ht] at hload hfits
    refine iff_of_false ?_ fun hall => ?_
    · rintro ⟨w', hal⟩
      cases hload.symm.trans hal
    · cases hfits.mpr hall

/-- What the load event of `m` leaves of the breakpoints. -/
structure LoadsAll (w : World) (m : Module) (w' : World) : Prop where
  deferred : ∀ p, p ∈ w'.globals.deferredBreakpoints.entries ↔
    p ∈ w.globals.deferredBreakpoints.entries ∧ p.1.1.modulename ≠ m.preferredName
  active : ∀ p ∈ w.globals.deferredBreakpoints.entries, p.1.1.modulename = m.preferredName →
    ∃ addr, locate w'.modules (({} : AbsOrRelAddr).setReladdr p.1.1) = .ok (some addr) ∧
      w'.globals.breakpoints.find? addr ≠ none

/-- A load event that comes to its end activates what waits for the module. -/
theorem loadsAll_of_alone (hal : w.alone b env (.app u) (.eventModuleLoaded m) = some (x, w')) :
    w.LoadsAll m w' := by
  obtain ⟨hm, hacts⟩ := free_of_alone rfl hal
  have hs : w.suspended = false := hacts.resolve_right nofun
  have hload := alone_eventModuleLoaded env b u m hm hs
  cases ht : w.globals.tables.load m with
  | none =>
    rw [ht] at hload
    cases hload.symm.trans hal
  | some t =>
    rw [ht] at hload
    obtain ⟨w₁, hal', l, rfl⟩ := hload
    obtain ⟨-, rfl⟩ := Prod.mk.inj (Option.some.inj (hal'.symm.trans hal))
    have hfilter := (Tables.load_eq_some ht).2
    refine ⟨fun p => ?_, fun p hp hname => ?_⟩
    · change p ∈ t.deferred.entries ↔ _
      rw [hfilter]
      simp [StdMap.filter]
    · obtain ⟨addr, hres, -⟩ := Tables.isSome_load.mp (Option.isSome_of_eq_some ht) p hp hname
      refine ⟨addr, (locate_cons hname).trans (by rw [hres]; rfl), ?_⟩
      change t.active.find? addr ≠ none
      rw [Tables.find?_load ht]
      exact fun hnone => Tables.held_ne_none hp ⟨hname, hres⟩ (Option.or_eq_none_iff.mp hnone).1

end World

namespace Target

/-- A breakpoint waits at `lib + n`, in an application that runs. -/
def waitsAt (n : Offset) : Target :=
  after .debug [] [.call (.addBreakpoint (relBreakpoint "lib".toList n 1)) {}, .resume {}]

/-- A breakpoint at `lib + 8` does not keep `lib` from being loaded. -/
theorem completesLoad_iff_inside :
    (waitsAt 8).world.CompletesLoad .debug {} 1 lib ∧
      ((waitsAt 8).world.CompletesLoad .debug {} 1 lib ↔
        ∀ p ∈ (waitsAt 8).world.globals.deferredBreakpoints.entries,
          p.1.1.modulename = lib.preferredName → p.1.1.LiesIn lib) := by
  exact ⟨⟨_, rfl⟩, World.completesLoad_iff rfl rfl⟩

/-- A breakpoint behind the end of `lib` does. -/
theorem not_completesLoad :
    ¬∀ t : Target, t.ReachedBy .debug (fun _ _ => True) → t.world.suspended = false →
      ∀ env u m, t.world.CompletesLoad .debug env u m := by
  intro h
  obtain ⟨w', hal⟩ := h (waitsAt 100) (reachedBy_after .debug [] fun _ _ _ => trivial) rfl {} 1 lib
  cases hal

end Target

end ConcreteEval
