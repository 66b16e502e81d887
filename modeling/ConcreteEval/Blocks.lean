import ConcreteEval.Book

/-!
# No breakpoint is missed

Every block that a thread can enter carries a clean call in front of each of its instructions
that is an active breakpoint, and the clean call for relevant blocks if they are a stop event
(`Target.NoMissed`). A block gets its clean calls when it is built, so what can go wrong is that
a breakpoint becomes active while the block is cached. The calls of the service come while the
application is suspended, and resuming it empties the cache; hits only remove breakpoints. That
leaves the load of a module, which flushes nothing.

What is known of DR is `Target.DrDelivers` : blocks are contiguous, and no block with an address in
`[start, end)` of a module is cached when it is loaded. `event_module_loaded` lets a breakpoint in
the module stand for its end as well. `Target.LoadsApart` is that no cached block has an instruction
there without its call.
-/

namespace ConcreteEval

/-- Each instruction ends where the next one starts, and the block ends at an address. -/
def Contiguous : List Instr → Prop
  | [] => True
  | [i] => i.pc.toNat + i.length < 2 ^ 64
  | i :: j :: bb => j.pc.toNat = i.pc.toNat + i.length ∧ Contiguous (j :: bb)

/-! ## What a block carries -/

namespace Block

/-- The block has a clean call to `update_fastforward_count` in front of the instruction. -/
def Guards (blk : Block) (i : Instr) : Prop :=
  ∃ l₁ l₂ start endPc, blk.items =
    l₁ ++ .cleanCall (.updateFastforwardCount i.pc start endPc) :: .app i :: l₂

/-- The block has a clean call to `relevant_block_clean_call`. -/
def MarksRelevant (blk : Block) : Prop :=
  ∃ start endPc, .cleanCall (.relevantBlockCleanCall start endPc) ∈ blk.items

/-- The block has the clean calls for these breakpoints and stop events. -/
structure Carries (blk : Block) (active : StdMap AppPc SizeT) (S : EventTypes) : Prop where
  guards : ∀ i ∈ blk.instrs, active.find? i.pc ≠ none → blk.Guards i
  relevant : EventType.relevantBlock ∈ S → blk.MarksRelevant

end Block

section Instrumented

variable {bb : List Instr} {first last i : Instr} {active : StdMap AppPc SizeT} {S : EventTypes}

/-- The instructions of a block are between its first and its end. -/
theorem Contiguous.toNat_le (h : Contiguous bb) (hfirst : bb.head? = some first)
    (hlast : bb.getLast? = some last) (hi : i ∈ bb) :
    first.pc.toNat ≤ i.pc.toNat ∧ i.pc.toNat ≤ last.pc.toNat + last.length ∧
      last.pc.toNat + last.length < 2 ^ 64 := by
  induction bb generalizing first i with
  | nil => cases hi
  | cons a bb ih =>
    obtain rfl := Option.some.inj hfirst
    cases bb with
    | nil =>
      obtain rfl := List.mem_singleton.mp hi
      obtain rfl : i = last := by simpa using hlast
      have hend : i.pc.toNat + i.length < 2 ^ 64 := h
      omega
    | cons b bb =>
      obtain ⟨hnext, h⟩ := h
      rw [List.getLast?_cons_cons] at hlast
      rcases List.mem_cons.mp hi with rfl | hi
      · have hb := ih h rfl hlast List.mem_cons_self
        omega
      · have hb := ih h rfl hlast hi
        omega

theorem Contiguous.mem_range (h : Contiguous bb) (hfirst : bb.head? = some first)
    (hlast : bb.getLast? = some last) (hi : i ∈ bb) :
    first.pc ≤ i.pc ∧ i.pc ≤ last.pc + BitVec.ofNat 64 last.length := by
  obtain ⟨hle, hend, hlt⟩ := h.toNat_le hfirst hlast hi
  rw [BitVec.le_def, BitVec.le_def, BitVec.toNat_add, BitVec.toNat_ofNat, Nat.add_mod_mod,
    Nat.mod_eq_of_lt hlt]
  exact ⟨hle, hend⟩

/-- Each instruction at a breakpoint gets its call. -/
theorem exists_insertBreakpointCalls (firstpc lastpc : AppPc) (hi : i ∈ bb)
    (hactive : active.find? i.pc ≠ none) :
    ∃ l₁ l₂, insertBreakpointCalls active firstpc lastpc bb =
      l₁ ++ .cleanCall (.updateFastforwardCount i.pc firstpc lastpc) :: .app i :: l₂ := by
  induction bb with
  | nil => cases hi
  | cons j bb ih =>
    rw [insertBreakpointCalls]
    rcases List.mem_cons.mp hi with rfl | hi
    · rw [if_pos (mt StdMap.count_eq_zero.mp hactive)]
      exact ⟨[], _, rfl⟩
    · obtain ⟨l₁, l₂, h⟩ := ih hi
      rw [h]
      split_ifs
      · exact ⟨_ :: _ :: l₁, l₂, rfl⟩
      · exact ⟨_ :: l₁, l₂, rfl⟩

/-- A block that is built carries what it should. -/
theorem carries_instrumented (h : Contiguous bb) (hfirst : bb.head? = some first)
    (hlast : bb.getLast? = some last) :
    (⟨bb, World.instrumented active S bb first.pc
      (last.pc + BitVec.ofNat 64 last.length)⟩ : Block).Carries active S := by
  refine ⟨fun i hi hactive => ?_, fun he => ?_⟩
  · obtain ⟨n, hn⟩ := Option.ne_none_iff_exists'.mp hactive
    obtain ⟨p, hp, hkey, -⟩ := StdMap.exists_mem_of_find? hn
    have hany : (active.entries.any fun p => first.pc ≤ p.1 ∧
        p.1 ≤ last.pc + BitVec.ofNat 64 last.length) = true := by
      refine List.any_eq_true.mpr ⟨p, hp, ?_⟩
      rw [← sameKey_appPc.mp hkey]
      exact decide_eq_true (h.mem_range hfirst hlast hi)
    obtain ⟨l₁, l₂, hcalls⟩ := exists_insertBreakpointCalls first.pc
      (last.pc + BitVec.ofNat 64 last.length) hi hactive
    unfold Block.Guards World.instrumented
    simp only [hany, if_true, hcalls]
    split_ifs
    · exact ⟨_ :: l₁, l₂, _, _, rfl⟩
    · exact ⟨l₁, l₂, _, _, rfl⟩
  · unfold Block.MarksRelevant World.instrumented
    simp only [he, if_true]
    exact ⟨_, _, List.mem_cons_self⟩

end Instrumented

/-! ## While the application runs -/

namespace Target

/-- Every block that a thread can enter carries what it should. -/
def NoMissed (t : Target) : Prop :=
  t.world.suspended = false → ∀ blk ∈ t.cache,
    (∀ i ∈ blk.instrs, t.world.globals.breakpoints.find? i.pc ≠ none → blk.Guards i) ∧
    ∀ S, t.world.globals.stopEvents = some S → EventType.relevantBlock ∈ S → blk.MarksRelevant

/-- What is known of DR. -/
def DrDelivers (t : Target) : Activity → Prop
  | .callback _ (.eventBasicBlock bb) _ => Contiguous bb
  | .callback _ (.eventModuleLoaded m) _ =>
    ∀ blk ∈ t.cache, ∀ i ∈ blk.instrs, ¬(m.start ≤ i.pc ∧ i.pc < m.endPc)
  | _ => True

/-- No breakpoint becomes active at the end of a module while a block is cached that has an
instruction there without the call. -/
def LoadsApart (t : Target) : Activity → Prop
  | .callback _ (.eventModuleLoaded m) _ =>
    ∀ p ∈ t.world.globals.deferredBreakpoints.entries, Tables.StandsFor m p m.endPc →
      ∀ blk ∈ t.cache, ∀ i ∈ blk.instrs, i.pc = m.endPc → blk.Guards i
  | _ => True

/-- The cached blocks carry what they should while a call waits for an event. -/
def Covered (k : Book) : Prop :=
  ∀ S, k.waiting = some S → ∀ blk ∈ k.cache, blk.Carries k.tables.active S

variable {t t' : Target} {l : Activity}

/-- Each step keeps the cached blocks covered. -/
theorem covered_step (h : Covered t.book) (hdr : t.DrDelivers l) (hload : t.LoadsApart l)
    {k' : Book} (hs : t.book.Step l k') : Covered k' := by
  cases hs with
  | call hw hop =>
    intro S hS
    cases hw.symm.trans hS
  | resume hw => exact fun S hS blk hblk => absurd hblk List.not_mem_nil
  | stop hw hs => exact nofun
  | @hit S u addr start endPc env hw =>
    intro S' hS' blk hblk
    refine ⟨fun i hi hne => (h S' hS' blk hblk).guards i hi fun hnone => hne ?_,
      (h S' hS' blk hblk).relevant⟩
    by_cases haddr : i.pc = addr
    · rw [haddr, Tables.find?_hit, ← haddr, hnone]
      rfl
    · rw [Tables.find?_hit_of_ne haddr, hnone]
  | relevant hw => exact h
  | @load S u m env tb hw ht =>
    intro S' hS' blk hblk
    refine ⟨fun i hi hne => ?_, (h S' hS' blk hblk).relevant⟩
    rw [Tables.find?_load ht] at hne
    cases hheld : Tables.held m i.pc t.book.tables.deferred.entries with
    | none =>
      rw [hheld, Option.none_or] at hne
      exact (h S' hS' blk hblk).guards i hi hne
    | some n =>
      obtain ⟨p, hp, hpi, -⟩ := Tables.exists_of_held hheld
      have hspan := (Tables.isSome_load.mp (Option.isSome_of_eq_some ht)).spans hp hpi
      by_cases hend : i.pc = m.endPc
      · exact hload p hp (hend ▸ hpi) blk hblk i hi hend
      · exact absurd ⟨hspan.1, BitVec.lt_of_le_ne hspan.2 hend⟩ (hdr blk hblk i hi)
  | @build S u bb first last env hw hfirst hlast =>
    intro S' hS' blk hblk
    obtain rfl : S = S' := Option.some.inj (hw.symm.trans hS')
    rcases List.mem_cons.mp hblk with rfl | hblk
    · exact carries_instrumented hdr hfirst hlast
    · exact h S hw blk hblk
  | unload hw => exact h
  | evict => exact fun S hS blk hblk => h S hS blk (List.mem_of_mem_eraseIdx hblk)

theorem covered_boot (modules : List Module) : Covered (boot .debug modules).book :=
  nofun

/-- In every run in which no breakpoint becomes active over a cached instruction at the end of a
module, no breakpoint is missed. -/
theorem no_missed_breakpoint
    (h : t.ReachedBy .debug fun t l => t.DrDelivers l ∧ t.LoadsApart l) : t.NoMissed := by
  have hcovered : Covered t.book := by
    obtain ⟨modules, hrun⟩ := h
    refine (invariant_of_moves (I := fun t => t.Ok ∧ Covered t.book)
      ⟨ok_boot modules, covered_boot modules⟩ ?_ hrun).2
    rintro t l t' ⟨hok, hcov⟩ ⟨hdr, hload⟩ hs
    obtain ⟨hok', hstep⟩ := book_step hok hs
    exact ⟨hok', covered_step hcov hdr hload hstep⟩
  intro hacts blk hblk
  have hok := h.ok
  obtain ⟨S, hS⟩ : ∃ S, t.waiting = some S := by
    rw [← Option.isSome_iff_exists, ← Option.isNone_eq_false_iff, ← hok.suspended, hacts]
  have hcarries := hcovered S hS blk hblk
  refine ⟨hcarries.guards, fun S' hS' he => hcarries.relevant ?_⟩
  rwa [← Option.some.inj (hS'.symm.trans (hok.stopEvents S hS))]

/-- A load after which no breakpoint is missed was apart from the cached blocks. -/
theorem loadsApart_of_noMissed {u : ℕ} {m : Module} {env : Env} (hok : t.Ok)
    (hs : t.step .debug (.callback u (.eventModuleLoaded m) env) = some t') (h : t'.NoMissed) :
    t.LoadsApart (.callback u (.eventModuleLoaded m) env) := by
  obtain ⟨hok', hstep⟩ := book_step hok hs
  generalize hk : t'.book = k' at hstep
  cases hstep with
  | load hw ht =>
    have hcache : t'.cache = t.cache := congrArg Book.cache hk
    have htables : t'.world.globals.tables = _ := congrArg Book.tables hk
    have hacts : t'.world.suspended = false := by
      rw [hok'.suspended, show t'.waiting = t.waiting from congrArg Book.waiting hk]
      exact Option.isNone_eq_false_iff.mpr (Option.isSome_of_eq_some hw)
    intro p hp hend blk hblk i hi hpc
    refine (h hacts blk (hcache ▸ hblk)).1 i hi ?_
    rw [← Globals.tables_active, htables, Tables.find?_load ht, hpc]
    intro hnone
    exact Tables.held_ne_none hp hend (Option.or_eq_none_iff.mp hnone).1

/-! ## At the end of a module -/

/-- A breakpoint waits at `lib + n`, and a block is built at 32, where `lib` will end. -/
def blockAhead (n : Offset) : List Activity :=
  [.call (.addBreakpoint (relBreakpoint "lib".toList n 1)) {}, .resume {},
    .callback 1 (.eventBasicBlock [⟨32, 4⟩]) {}]

/-- The load of `lib`. -/
def loadLib : Activity :=
  .callback 1 (.eventModuleLoaded lib) {}

theorem reachedBy_blockAhead (n : Offset) :
    (after .debug [] (blockAhead n)).ReachedBy .debug
      fun t l => t.DrDelivers l ∧ t.LoadsApart l := by
  refine reachedBy_after .debug [] fun t l hl => ?_
  simp only [blockAhead, List.mem_cons, List.not_mem_nil, or_false] at hl
  rcases hl with rfl | rfl | rfl
  · exact ⟨trivial, trivial⟩
  · exact ⟨trivial, trivial⟩
  · exact ⟨(by decide : (32#64).toNat + 4 < 2 ^ 64), trivial⟩

/-- A breakpoint inside `lib` becomes active. -/
theorem no_missed_breakpoint_inside :
    (after .debug [] (blockAhead 8 ++ [loadLib])).NoMissed := by
  have hapart : ∀ p ∈ (after .debug [] (blockAhead 8)).world.globals.deferredBreakpoints.entries,
      ¬Tables.StandsFor lib p lib.endPc := by decide
  refine no_missed_breakpoint ((reachedBy_blockAhead 8).tail (l := loadLib) ⟨?_, ?_⟩ rfl)
  · exact (by decide : ∀ blk ∈ (after .debug [] (blockAhead 8)).cache, ∀ i ∈ blk.instrs,
      ¬(lib.start ≤ i.pc ∧ i.pc < lib.endPc))
  · exact fun p hp hend => absurd hend (hapart p hp)

/-- A breakpoint at the end of `lib` becomes active over the cached block. -/
theorem not_no_missed_breakpoint :
    ¬∀ t : Target, t.ReachedBy .debug DrDelivers → t.NoMissed := by
  intro h
  have hdr : ∀ blk ∈ (after .debug [] (blockAhead 16)).cache, ∀ i ∈ blk.instrs,
      ¬(lib.start ≤ i.pc ∧ i.pc < lib.endPc) := by decide
  have hrun : (after .debug [] (blockAhead 16 ++ [loadLib])).ReachedBy .debug DrDelivers :=
    ((reachedBy_blockAhead 16).mono fun _ _ h => h.1).tail (l := loadLib) hdr rfl
  have hcache : (after .debug [] (blockAhead 16 ++ [loadLib])).cache =
      [⟨[⟨32, 4⟩], [.app ⟨32, 4⟩]⟩] := rfl
  obtain ⟨l₁, l₂, start, endPc, hitems⟩ := (h _ hrun rfl _ (hcache ▸ List.mem_singleton_self _)).1
    ⟨32, 4⟩ (List.mem_singleton_self _) (by decide)
  have hlen := congrArg List.length hitems
  simp at hlen
  omega

end Target

end ConcreteEval
