import ConcreteEval.Blocks
import ConcreteEval.Translation

/-!
# What instrumentation inserts

`event_basic_block` looks for a breakpoint from the first address of the block to its end, the end
included, and walks the block only if there is one. On contiguous instructions this decides nothing
that the walk does not decide : each instruction starts between the first address and the end, so an
instruction at a breakpoint is never passed over (`World.instrumented_eq_called`).

`World.Instruments` says what is inserted, with the addresses that the clean calls get. It holds of
every block that `event_basic_block` builds, alone or with other threads in between
(`World.instruments_of_contiguous`).
-/

namespace ConcreteEval

/-- The byte at `x` is one of the instruction. -/
def Instr.Covers (i : Instr) (x : AppPc) : Prop :=
  i.pc.toNat ≤ x.toNat ∧ x.toNat < i.pc.toNat + i.length

/-- Whether the item is a call of `update_fastforward_count` for the address. -/
def Item.callsAt (addr : AppPc) : Item → Bool
  | .cleanCall (.updateFastforwardCount x _ _) => x = addr
  | _ => false

/-! ## Contiguous instructions -/

section Contiguous

variable {bb : List Instr} {first last i : Instr}

theorem Contiguous.toNat_end (h : Contiguous bb) (hlast : bb.getLast? = some last) :
    (last.pc + BitVec.ofNat 64 last.length).toNat = last.pc.toNat + last.length := by
  have hmem := List.mem_of_getLast? hlast
  obtain ⟨first, hfirst⟩ : ∃ first, bb.head? = some first := by
    cases bb with
    | nil => cases hmem
    | cons i bb => exact ⟨i, rfl⟩
  have hlt := (h.toNat_le hfirst hlast hmem).2.2
  rw [BitVec.toNat_add, BitVec.toNat_ofNat, Nat.add_mod_mod, Nat.mod_eq_of_lt hlt]

/-- The bytes of the block are those of its instructions. -/
theorem Contiguous.covers (h : Contiguous bb) (hfirst : bb.head? = some first)
    (hlast : bb.getLast? = some last) (n : ℕ) :
    first.pc.toNat ≤ n ∧ n < last.pc.toNat + last.length ↔
      ∃ i ∈ bb, i.pc.toNat ≤ n ∧ n < i.pc.toNat + i.length := by
  induction bb generalizing first with
  | nil => cases hfirst
  | cons i bb ih =>
    obtain rfl := Option.some.inj hfirst
    cases bb with
    | nil =>
      obtain rfl : i = last := by simpa using hlast
      simp
    | cons j bb =>
      obtain ⟨hnext, h⟩ := h
      rw [List.getLast?_cons_cons] at hlast
      have hj := h.toNat_le rfl hlast List.mem_cons_self
      rw [List.exists_mem_cons_iff, ← ih h rfl hlast]
      omega

/-- The instructions are in the order of their addresses. -/
theorem Contiguous.pairwise (h : Contiguous bb) (hlen : ∀ i ∈ bb, 0 < i.length) :
    bb.Pairwise fun i j => i.pc.toNat < j.pc.toNat := by
  induction bb with
  | nil => exact List.Pairwise.nil
  | cons i bb ih =>
    cases bb with
    | nil => exact List.pairwise_singleton _ _
    | cons j bb =>
      obtain ⟨hnext, h⟩ := h
      obtain ⟨last, hlast⟩ : ∃ last, (j :: bb).getLast? = some last :=
        ⟨_, List.getLast?_eq_some_getLast (List.cons_ne_nil j bb)⟩
      have hi := hlen i List.mem_cons_self
      refine List.pairwise_cons.mpr ⟨fun k hk => ?_, ih h fun k hk => hlen k ?_⟩
      · have hk := h.toNat_le rfl hlast hk
        omega
      · exact List.mem_cons_of_mem i hk

end Contiguous

namespace World

section Called

variable {active : StdMap AppPc SizeT} {S : EventTypes} {bb : List Instr} {first last i : Instr}
  {start endPc : AppPc}

/-- An instruction, with its call in front if it is at a breakpoint. -/
def called (active : StdMap AppPc SizeT) (start endPc : AppPc) (i : Instr) : List Item :=
  if active.find? i.pc ≠ none then
    [.cleanCall (.updateFastforwardCount i.pc start endPc), .app i]
  else [.app i]

/-- The items of a block with its first address and its end : the call for relevant blocks in front
of all others, and one call in front of each instruction at a breakpoint. -/
structure Instruments (active : StdMap AppPc SizeT) (S : EventTypes) (bb : List Instr)
    (start endPc : AppPc) (items : List Item) : Prop where
  eq_called : items =
    (if EventType.relevantBlock ∈ S then [.cleanCall (.relevantBlockCleanCall start endPc)]
      else []) ++ bb.flatMap (called active start endPc)
  once : ∀ addr, items.countP (Item.callsAt addr) =
    if active.find? addr ≠ none ∧ ∃ i ∈ bb, i.pc = addr then 1 else 0
  inside : ∀ i ∈ bb, start ≤ i.pc ∧ i.pc < endPc
  range : ∀ x, start ≤ x ∧ x < endPc ↔ ∃ i ∈ bb, i.Covers x

/-- Each address is called for once if it is that of an instruction at a breakpoint. -/
theorem countP_called (h : bb.Pairwise fun i j => i.pc.toNat < j.pc.toNat) (addr : AppPc) :
    (bb.flatMap (called active start endPc)).countP (Item.callsAt addr) =
      if active.find? addr ≠ none ∧ ∃ i ∈ bb, i.pc = addr then 1 else 0 := by
  induction bb with
  | nil => simp
  | cons i bb ih =>
    obtain ⟨hi, h⟩ := List.pairwise_cons.mp h
    rw [List.flatMap_cons, List.countP_append, ih h, called]
    by_cases hpc : i.pc = addr
    · have hrest : ¬∃ j ∈ bb, j.pc = addr := by
        rintro ⟨j, hj, hjpc⟩
        have := hi j hj
        rw [hpc, hjpc] at this
        exact lt_irrefl _ this
      by_cases hactive : active.find? addr = none <;>
        simp [hpc, hrest, hactive, Item.callsAt]
    · by_cases hactive : active.find? i.pc = none <;>
        simp [hpc, hactive, Item.callsAt]

/-- Looking for a breakpoint first leaves out no call. -/
theorem instrumented_eq_called (hc : Contiguous bb) (hfirst : bb.head? = some first)
    (hlast : bb.getLast? = some last) :
    instrumented active S bb first.pc (last.pc + BitVec.ofNat 64 last.length) =
      (if EventType.relevantBlock ∈ S then
        [.cleanCall (.relevantBlockCleanCall first.pc (last.pc + BitVec.ofNat 64 last.length))]
        else []) ++
      bb.flatMap (called active first.pc (last.pc + BitVec.ofNat 64 last.length)) := by
  rw [instrumented_eq]
  congr 1
  refine List.flatMap_congr fun i hi => ?_
  have hmarks : Marks active first.pc (last.pc + BitVec.ofNat 64 last.length) i ↔
      active.find? i.pc ≠ none := by
    refine ⟨fun h => h.2, fun h => ⟨?_, h⟩⟩
    obtain ⟨n, hn⟩ := Option.ne_none_iff_exists'.mp h
    obtain ⟨p, hp, hkey, -⟩ := StdMap.exists_mem_of_find? hn
    refine ⟨p, hp, ?_⟩
    rw [← sameKey_appPc.mp hkey]
    exact hc.mem_range hfirst hlast hi
  unfold marked called
  exact if_congr hmarks rfl rfl

/-- What is inserted into contiguous instructions. -/
theorem instruments_instrumented (hc : Contiguous bb) (hlen : ∀ i ∈ bb, 0 < i.length)
    (hfirst : bb.head? = some first) (hlast : bb.getLast? = some last) :
    Instruments active S bb first.pc (last.pc + BitVec.ofNat 64 last.length)
      (instrumented active S bb first.pc (last.pc + BitVec.ofNat 64 last.length)) where
  eq_called := instrumented_eq_called hc hfirst hlast
  once addr := by
    rw [instrumented_eq_called hc hfirst hlast, List.countP_append,
      countP_called (hc.pairwise hlen)]
    split_ifs <;> simp [Item.callsAt]
  inside i hi := by
    rw [BitVec.le_def, BitVec.lt_def, hc.toNat_end hlast, hc.covers hfirst hlast]
    exact ⟨i, hi, le_refl _, Nat.lt_add_of_pos_right (hlen i hi)⟩
  range x := by
    rw [BitVec.le_def, BitVec.lt_def, hc.toNat_end hlast, hc.covers hfirst hlast]
    rfl

end Called

/-! ## Blocks that are built -/

variable {bb : List Instr} {first last : Instr} {items : List Item} {τ : List (Prog.Event drApi)}

/-- With other threads in between the breakpoints are those of the first look at the globals, the
stop events those of the second. -/
theorem path_eventBasicBlock (hfirst : bb.head? = some first) (hlast : bb.getLast? = some last)
    (h : (eventBasicBlock bb).Path τ (.returned items)) :
    ∃ g g' S, τ = [⟨.drMutexLock, ()⟩, ⟨.read, g⟩, ⟨.read, g'⟩, ⟨.drMutexUnlock, ()⟩] ∧
      g'.stopEvents = some S ∧
      items = instrumented g.breakpoints S bb first.pc
        (last.pc + BitVec.ofNat 64 last.length) := by
  unfold eventBasicBlock at h
  rw [hfirst, hlast] at h
  obtain ⟨_, _, rfl, g, _, rfl, g', _, rfl, h⟩ := h
  cases hS : g'.stopEvents with
  | none =>
    simp only [Prog.ret_bind, Prog.bind_eq, hS, deref, fault, Prog.stop_bind] at h
    cases h.2
  | some S =>
    simp only [Prog.ret_bind, Prog.bind_eq, hS, deref, Prog.pure_eq] at h
    obtain ⟨_, τ', rfl, h⟩ := h
    refine ⟨g, g', S, ?_⟩
    unfold instrumented
    by_cases he : EventType.relevantBlock ∈ S
    · simp only [he, decide_true, if_true] at h ⊢
      obtain ⟨rfl, h⟩ := h
      exact ⟨rfl, hS, Prog.Ending.returned.inj h⟩
    · simp only [he, decide_false, if_false] at h ⊢
      obtain ⟨rfl, h⟩ := h
      exact ⟨rfl, hS, Prog.Ending.returned.inj h⟩

theorem exists_bounds (hne : bb ≠ []) :
    ∃ first last, bb.head? = some first ∧ bb.getLast? = some last :=
  ⟨_, _, List.head?_eq_some_head hne, List.getLast?_eq_some_getLast hne⟩

variable (b : Build) (bb) in
/-- What `event_basic_block` inserts into contiguous instructions, where it runs alone and where
other threads act meanwhile. -/
theorem instruments_of_contiguous (hne : bb ≠ []) (hc : Contiguous bb)
    (hlen : ∀ i ∈ bb, 0 < i.length) :
    (∀ (w : World) (a : Actor) (env : Env) (S : EventTypes), w.CanBuild a S →
      ∃ start endPc items, w.builds b env a bb = some items ∧
        Instruments w.globals.breakpoints S bb start endPc items) ∧
    ∀ (τ : List (Prog.Event drApi)) (items : List Item),
      (eventBasicBlock bb).Path τ (.returned items) →
      ∃ g g' S start endPc,
        τ = [⟨.drMutexLock, ()⟩, ⟨.read, g⟩, ⟨.read, g'⟩, ⟨.drMutexUnlock, ()⟩] ∧
        g'.stopEvents = some S ∧ Instruments g.breakpoints S bb start endPc items := by
  obtain ⟨first, last, hfirst, hlast⟩ := exists_bounds hne
  constructor
  · intro w a env S h
    refine ⟨_, _, _, builds_eq h ?_, instruments_instrumented hc hlen hfirst hlast⟩
    unfold bounds
    rw [hfirst, hlast]
  · intro τ items h
    obtain ⟨g, g', S, hτ, hS, rfl⟩ := path_eventBasicBlock hfirst hlast h
    exact ⟨g, g', S, _, _, hτ, hS, instruments_instrumented hc hlen hfirst hlast⟩

/-- Breakpoints at both instructions of a block, inside one of them, and behind the block. -/
def blockWorld : World where
  globals := {
    stopEvents := some {.relevantBlock}
    breakpoints := (((StdMap.assign ∅ 16 1).assign 18 1).assign 20 1).assign 22 1 }

theorem instruments_of_contiguous_two :
    ∃ start endPc, Instruments blockWorld.globals.breakpoints {.relevantBlock}
      [⟨16, 4⟩, ⟨20, 2⟩] start endPc
      [.cleanCall (.relevantBlockCleanCall 16 22), .cleanCall (.updateFastforwardCount 16 16 22),
        .app ⟨16, 4⟩, .cleanCall (.updateFastforwardCount 20 16 22), .app ⟨20, 2⟩] := by
  have hc : Contiguous [⟨16, 4⟩, ⟨20, 2⟩] := ⟨by decide, (by decide : (20#64).toNat + 2 < 2 ^ 64)⟩
  obtain ⟨start, endPc, items, hbuilds, h⟩ :=
    (instruments_of_contiguous [⟨16, 4⟩, ⟨20, 2⟩] .debug (by simp) hc (by simp)).1 blockWorld
      (.app 1) {} {.relevantBlock} ⟨rfl, Or.inl rfl, rfl⟩
  obtain rfl := Option.some.inj hbuilds
  exact ⟨start, endPc, h⟩

end World

end ConcreteEval
