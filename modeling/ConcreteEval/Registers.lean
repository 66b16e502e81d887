import ConcreteEval.Book

/-!
# What `getContext` reports

`getContext` turns the machine context of the last stop into a map from register names to the
bytes of the registers. A report should tell any two contexts apart that differ in a
general-purpose register or in the status flags (`World.ReportsFaithfully`). The loop of
`getContext` ends before `DR_REG_STOP_GPR`, which is the last register, and the entry of the flags
is filled from the member that says what was captured. So `r15` and the status flags are not in the
map (`registers_eq_iff`), and the exact condition for two contexts to be told apart leaves them out
(`World.reportsFaithfully_iff`).
-/

namespace ConcreteEval

/-! ## Bytes -/

theorem toNat_ofNat_byte (x : ℕ) : (Char.ofNat (x % 256)).toNat = x % 256 := by
  have hvalid : (x % 256).isValidChar := Or.inl (by omega)
  rw [Char.ofNat, dif_pos hvalid]
  rfl

/-- Enough bytes tell any two values apart. -/
theorem littleEndian_injective {w n : ℕ} (h : w ≤ 8 * n) :
    Function.Injective (littleEndian (w := w) n) := by
  intro v v' hv
  have hbyte : ∀ k < n, (v >>> (8 * k)).toNat % 2 ^ 8 = (v' >>> (8 * k)).toNat % 2 ^ 8 := by
    intro k hk
    have hchar := List.map_inj_left.mp hv k (List.mem_range.mpr hk)
    have hnat := congrArg Char.toNat hchar
    rwa [toNat_ofNat_byte, toNat_ofNat_byte] at hnat
  refine BitVec.eq_of_getLsbD_eq fun i hi => ?_
  have hk := congrArg (Nat.testBit · (i % 8)) (hbyte (i / 8) (by omega))
  simp only [Nat.testBit_mod_two_pow, BitVec.testBit_toNat, BitVec.getLsbD_ushiftRight] at hk
  have hi8 : 8 * (i / 8) + i % 8 = i := Nat.div_add_mod i 8
  simpa [hi8, Nat.mod_lt i (show 0 < 8 by omega)] using hk

theorem sameKey_cxxString {a b : CxxString} : SameKey a b ↔ a = b := by
  simp only [SameKey, IncompRel, not_lt]
  exact ⟨fun h => le_antisymm h.2 h.1, fun h => ⟨h.ge, h.le⟩⟩

/-! ## The report of a context -/

/-- The registers that the loop of `getContext` reports. -/
def reported : List ℕ :=
  List.range' drRegStartGpr (drRegStopGpr - drRegStartGpr)

/-- The map after the loop of `getContext`. -/
def loopRegisters (mc : Mcontext) : RegisterContext :=
  reported.foldl
    (fun m i => StdMap.assign m (getRegisterName i) (littleEndian 8 (regGetValue i mc))) ∅

/-- The map of `getContext` for the context `mc`. -/
def registers (mc : Mcontext) : RegisterContext :=
  (loopRegisters mc).assign "flags".toList (littleEndian 4 mc.flags)

section Registers

variable {mc mc' : Mcontext} {i : ℕ}

theorem mem_reported : i ∈ reported ↔ i < 15 := by
  simp [reported, drRegStartGpr, drRegStopGpr]

theorem getRegisterName_injOn {j : ℕ} (hi : i ∈ reported) (hj : j ∈ reported)
    (h : SameKey (getRegisterName i) (getRegisterName j)) : i = j := by
  have hall : ∀ i ∈ reported, ∀ j ∈ reported, getRegisterName i = getRegisterName j → i = j := by
    decide
  exact hall i hi j hj (sameKey_cxxString.mp h)

theorem getRegisterName_ne_flags (hi : i < 16) : ¬SameKey (getRegisterName i) "flags".toList := by
  have hall : ∀ i < 16, getRegisterName i ≠ "flags".toList := by decide
  exact mt sameKey_cxxString.mp (hall i hi)

/-- A register of the loop has its bytes in the report. -/
theorem find?_registers (hi : i ∈ reported) :
    (registers mc).find? (getRegisterName i) = some (littleEndian 8 (regGetValue i mc)) := by
  have hi16 : i < 16 := (mem_reported.mp hi).trans (by omega)
  rw [registers, StdMap.find?_assign_of_not (getRegisterName_ne_flags hi16), loopRegisters]
  exact StdMap.find?_foldl_assign_of_mem hi fun i hi j hj h => getRegisterName_injOn hi hj h

/-- Any other register is not in the report. -/
theorem find?_registers_of_not (hi : i < 16) (hn : i ∉ reported) :
    (registers mc).find? (getRegisterName i) = none := by
  have hall : ∀ i < 16, i ∉ reported → ∀ j ∈ reported, getRegisterName i ≠ getRegisterName j := by
    decide
  rw [registers, StdMap.find?_assign_of_not (getRegisterName_ne_flags hi), loopRegisters,
    StdMap.find?_foldl_assign_of_not fun j hj => mt sameKey_cxxString.mp (hall i hi hn j hj)]
  rfl

/-- What the report tells of a context : the registers of the loop, and which parts of the context
were captured. -/
theorem registers_eq_iff :
    registers mc = registers mc' ↔
      (∀ i ∈ reported, regGetValue i mc = regGetValue i mc') ∧ mc.flags = mc'.flags := by
  constructor
  · intro h
    constructor
    · intro i hi
      have hfind := congrArg (StdMap.find? · (getRegisterName i)) h
      simp only [find?_registers hi, Option.some.injEq] at hfind
      exact littleEndian_injective (by omega) hfind
    · have hfind := congrArg (StdMap.find? · "flags".toList) h
      simp only [registers, StdMap.find?_assign_self, Option.some.injEq] at hfind
      exact littleEndian_injective (by omega) hfind
  · rintro ⟨hregs, hflags⟩
    have hloop : loopRegisters mc = loopRegisters mc' :=
      List.foldl_ext _ _ _ fun m i hi => by rw [hregs i hi]
    rw [registers, registers, hloop, hflags]

end Registers

/-! ## The call -/

/-- The context differs in a general-purpose register or in the status flags. -/
def Mcontext.Differs (mc mc' : Mcontext) : Prop :=
  (∃ i, mc.gpr i ≠ mc'.gpr i) ∨ mc.xflags ≠ mc'.xflags

/-- `suspend_helper` can store the context. -/
def Mcontext.Captured (mc : Mcontext) : Prop :=
  ∃ env a w e start endPc w',
    World.run env a (suspendHelper (some e) start endPc) w = (.ret (), w') ∧
    w'.globals.stoppedContext = some (e, mc)

namespace World

variable {env : Env} {a : Actor} {w w' : World} {e e' : EventType} {mc mc' : Mcontext}

/-- The map that `getContext` returns. -/
def context (w : World) : Option RegisterContext :=
  match w.alone .debug {} .server .getContext with
  | some (.returned (.registers c), _) => some c
  | _ => none

theorem yields_getContext (hm : w.mutex = none) (hc : w.globals.stoppedContext = some (e, mc)) :
    Yields env a w getContext (.ret (registers mc)) w := by
  have hrun : Yields env a w getContext (.ret (registers mc)) { w with mutex := none } := by
    refine .step (answer_lock hm) id (.step rfl id (yields_check (by simp [hc]) ?_))
    simp only [hc]
    exact .step rfl id (.ret _)
  rwa [free_eq hm] at hrun

theorem context_eq (hm : w.mutex = none) (hc : w.globals.stoppedContext = some (e, mc)) :
    w.context = some (registers mc) := by
  have hal : ∃ w', w.alone .debug {} .server .getContext =
      some (.returned (.registers (registers mc)), w') ∧ w.Logs w' :=
    alone_eq_some (.bind (yields_getContext hm hc) id (.ret _)) (Or.inr rfl) rfl
  obtain ⟨w', hal, -⟩ := hal
  rw [context, hal]

/-- A context that is captured is captured whole. -/
theorem flags_of_captured (h : mc.Captured) : mc.flags = drMcAll := by
  obtain ⟨env, a, w, e, start, endPc, w', hrun, hc⟩ := h
  have hacts : w.Acts a := by
    by_contra hn
    have hw : w.perform env a .drGetCurrentDrcontext = none := by
      have hs : w.suspended = true ∧ a ≠ .server := by
        simpa [Acts, not_or] using hn
      simp [perform, hs]
    have hstuck : World.run env a (suspendHelper (some e) start endPc) w =
        (suspendHelper (some e) start endPc, w) := by
      unfold World.run suspendHelper
      simp only [Prog.bind_eq, drGetCurrentDrcontext_bind, Prog.exec_act, hw]
    rw [hstuck] at hrun
    cases hrun
  obtain ⟨w₁, hrun', l, rfl⟩ := yields_suspendHelper env a e start endPc hacts w ⟨_, rfl⟩
  obtain ⟨-, rfl⟩ := Prod.mk.inj (hrun.symm.trans hrun')
  obtain ⟨-, rfl⟩ := Prod.mk.inj (Option.some.inj hc)
  rfl

theorem captured_of_flags (h : mc.flags = drMcAll) : mc.Captured := by
  obtain ⟨w', hrun, l, rfl⟩ := yields_suspendHelper { mcontext := mc } .server
    (w := {}) .breakpoint 0 0 (Or.inr rfl) {} ⟨_, rfl⟩
  refine ⟨_, _, _, .breakpoint, 0, 0, _, hrun, ?_⟩
  simp [signals, ← h]

/-- The reports of the two contexts tell them apart, and their entries are the bytes of the
registers. -/
def ReportsFaithfully (w w' : World) (mc mc' : Mcontext) : Prop :=
  ∃ c c', w.context = some c ∧ w'.context = some c' ∧ (mc.Differs mc' → c ≠ c') ∧
    ∀ i < 16, (∀ s, c.find? (getRegisterName i) = some s → s = littleEndian 8 (regGetValue i mc)) ∧
      ∀ s, c'.find? (getRegisterName i) = some s → s = littleEndian 8 (regGetValue i mc')

theorem eq_bytes_of_find? {i : ℕ} (hi : i < 16) {s : CxxString}
    (h : (registers mc).find? (getRegisterName i) = some s) :
    s = littleEndian 8 (regGetValue i mc) := by
  by_cases hr : i ∈ reported
  · rw [find?_registers hr, Option.some.injEq] at h
    exact h.symm
  · rw [find?_registers_of_not hi hr] at h
    cases h

/-- Two contexts are reported faithfully just if they differ in one of the registers before the
last, or neither in the last register nor in the status flags. -/
theorem reportsFaithfully_iff (hm : w.mutex = none) (hm' : w'.mutex = none)
    (hc : w.globals.stoppedContext = some (e, mc))
    (hc' : w'.globals.stoppedContext = some (e', mc')) (h : mc.Captured) (h' : mc'.Captured) :
    w.ReportsFaithfully w' mc mc' ↔
      (∃ i : Fin 16, i < 15 ∧ mc.gpr i ≠ mc'.gpr i) ∨
        mc.gpr 15 = mc'.gpr 15 ∧ mc.xflags = mc'.xflags := by
  have hflags : mc.flags = mc'.flags := by
    rw [flags_of_captured h, flags_of_captured h']
  have hsame : registers mc = registers mc' ↔ ∀ i : Fin 16, i < 15 → mc.gpr i = mc'.gpr i := by
    rw [registers_eq_iff]
    simp only [hflags, and_true, mem_reported]
    constructor
    · intro hregs i hi
      simpa [regGetValue] using hregs i.val hi
    · intro hregs i hi
      exact hregs (Fin.ofNat 16 i) (by simp [Fin.lt_def]; omega)
  have hfaithful : w.ReportsFaithfully w' mc mc' ↔
      (mc.Differs mc' → ¬registers mc = registers mc') := by
    constructor
    · rintro ⟨c, c', hr, hr', hd, -⟩
      rw [context_eq hm hc, Option.some.injEq] at hr
      rw [context_eq hm' hc', Option.some.injEq] at hr'
      rwa [hr, hr']
    · intro hd
      refine ⟨_, _, context_eq hm hc, context_eq hm' hc', hd, fun i hi => ⟨?_, ?_⟩⟩
      · exact fun s hs => eq_bytes_of_find? hi hs
      · exact fun s hs => eq_bytes_of_find? hi hs
  rw [hfaithful, hsame]
  constructor
  · intro hd
    by_cases hfirst : ∃ i : Fin 16, i < 15 ∧ mc.gpr i ≠ mc'.gpr i
    · exact Or.inl hfirst
    · right
      push Not at hfirst
      have hsame : ¬mc.Differs mc' := fun hdiff => hd hdiff hfirst
      unfold Mcontext.Differs at hsame
      push Not at hsame
      exact ⟨hsame.1 15, hsame.2⟩
  · rintro (⟨i, hi, hne⟩ | ⟨hlast, hx⟩) hdiff hregs
    · exact hne (hregs i hi)
    · rcases hdiff with ⟨i, hne⟩ | hne
      · by_cases hi : i < 15
        · exact hne (hregs i hi)
        · obtain rfl : i = 15 := by omega
          exact hne hlast
      · exact hne hx

/-- A stop with the values `f` in the registers and the status flags `x`. -/
def stoppedWith (f : Fin 16 → BitVec 64) (x : BitVec 64) : World where
  globals := { stoppedContext := some (.breakpoint, ⟨drMcAll, f, x⟩) }

theorem reportsFaithfully_iff_rax :
    (stoppedWith (fun _ => 0) 0).ReportsFaithfully (stoppedWith (fun i => if i = 0 then 1 else 0) 0)
      ⟨drMcAll, fun _ => 0, 0⟩ ⟨drMcAll, fun i => if i = 0 then 1 else 0, 0⟩ :=
  (reportsFaithfully_iff rfl rfl rfl rfl (captured_of_flags rfl) (captured_of_flags rfl)).mpr
    (Or.inl ⟨0, by decide, by decide⟩)

/-- Two contexts that differ in `r15` can have the same report. -/
theorem not_reportsFaithfully :
    ¬∀ (w w' : World) (e e' : EventType) (mc mc' : Mcontext), w.mutex = none → w'.mutex = none →
      w.globals.stoppedContext = some (e, mc) → w'.globals.stoppedContext = some (e', mc') →
      mc.Captured → mc'.Captured → w.ReportsFaithfully w' mc mc' := by
  intro h
  obtain ⟨c, c', hc, hc', hne, -⟩ := h (stoppedWith (fun _ => 0) 0)
    (stoppedWith (fun i => if i = 15 then 1 else 0) 0) _ _ _ _ rfl rfl rfl rfl
    (captured_of_flags rfl) (captured_of_flags rfl)
  rw [context_eq rfl rfl, Option.some.injEq] at hc hc'
  have hdiffers : Mcontext.Differs ⟨drMcAll, fun _ => 0, 0⟩
      ⟨drMcAll, fun i => if i = 15 then 1 else 0, 0⟩ := Or.inl ⟨15, by decide⟩
  refine hne hdiffers ?_
  rw [← hc, ← hc', registers_eq_iff]
  exact ⟨by decide, rfl⟩

end World

end ConcreteEval
