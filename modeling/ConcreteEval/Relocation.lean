import ConcreteEval.Book

/-!
# The address of a code block in other runs

`getCodeBlock` gives the block of the last stop with an address relative to its module : the
module's preferred name, and the distance of the block from the module's start as an offset. A
client can add a breakpoint there in a later run, in which the module is at another place.
`AbsOrRelAddr_to_AbsAddr` adds the offset to where the module starts then, in 64 bits, be it in
`addBreakpoint` or in the load event of the module (`RelAddr.Relocates`). In the run of the stop
this is the block's address again (`World.codeBlock_relocates`).
-/

namespace ConcreteEval

namespace World

variable {w w' : World} {env : Env} {a : Actor} {b : Build} {addr : AbsOrRelAddr} {x : AppPc}

/-- `AbsOrRelAddr_to_AbsAddr` returns `x`, on any thread that is not suspended. -/
def Resolves (w : World) (addr : AbsOrRelAddr) (x : AppPc) : Prop :=
  ∀ env a u, w.Acts a → (run env a (absOrRelAddrToAbsAddr addr u) w).1 = .ret (some x)

theorem resolves_of_locate (h : locate w.modules addr = .ok (some x)) : w.Resolves addr x := by
  intro env a u hacts
  have hy := yields_absOrRelAddrToAbsAddr env a (w := w) addr u
  rw [h] at hy
  obtain ⟨w₁, hrun, -⟩ := hy hacts w ⟨w.log, rfl⟩
  rw [hrun]

/-- What `getCodeBlock` returns. -/
theorem eq_codeBlock_of_alone {c : CodeBlock}
    (hal : w.alone b env .server .getCodeBlock = some (.returned (.codeBlock c), w')) :
    ∃ block bytes, w.globals.stoppedBlock = some block ∧ c = w.codeBlock block bytes := by
  have hm := (free_of_alone rfl hal).1
  cases hb : w.globals.stoppedBlock with
  | none =>
    have hy : Yields env .server w getCodeBlock
        (throwException "Unable to locate stopped block.".toList) w := by
      refine .step (answer_lock hm) id (.step rfl id ?_)
      exact yields_check_fails (by simp [hb]) hm
    cases (alone_logs (.bind_stop hy) (Or.inr rfl) hal).1
  | some block =>
    cases hbytes : env.bytes with
    | none =>
      have hy : Yields env .server w getCodeBlock (.stop (.thrown .lengthError))
          { w with mutex := some .server } := by
        refine .step (answer_lock hm) id (.step rfl id (yields_check (by simp [hb]) ?_))
        simp only [hb]
        exact .step (r := none) (by simp [World.answer, hbytes]) id (.stop _)
      cases (alone_logs (.bind_stop hy) (Or.inr rfl) hal).1
    | some bytes =>
      have hy : Yields env .server w ((Operation.getCodeBlock).prog b)
          (.ret (.codeBlock (w.codeBlock block bytes))) w :=
        .bind (yields_getCodeBlock hm hb hbytes) id (.ret _)
      have hc := (alone_logs hy (Or.inr rfl) hal).1
      simp only [endingOf, Option.some.injEq, Prog.Ending.returned.injEq,
        Result.codeBlock.injEq] at hc
      exact ⟨block, bytes, rfl, hc.symm⟩

end World

/-! ## At another place -/

section Offset

variable {ra : RelAddr} {modules : List Module} {m : Module}

theorem resolve_offset (m : Module) (h : ra.offset.isset.offset = true) :
    m.resolve ra = .ok (m.start + ra.offset.offset) := by
  rw [Module.resolve, if_pos h]

theorem locate_offset (h : ra.offset.isset.offset = true)
    (hm : moduleNamed modules ra.modulename = some m) :
    locate modules (({} : AbsOrRelAddr).setReladdr ra) =
      .ok (some (m.start + ra.offset.offset)) := by
  rw [locate_loaded rfl rfl hm]
  exact congrArg (Except.map some) (resolve_offset m h)

end Offset

namespace Tables

variable {modules : List Module} {bp : WireBreakpoint} {ra : RelAddr} {t t' : Tables}
  {m : Module} {k : DeferredKey} {n : SizeT}

/-- A breakpoint at an offset into a loaded module is put at the address there. -/
theorem place_offset (haddr : bp.1.addr = ({} : AbsOrRelAddr).setReladdr ra)
    (h : ra.offset.isset.offset = true) (hm : moduleNamed modules ra.modulename = some m) :
    place modules bp = .ok (.active (m.start + ra.offset.offset)) := by
  rw [place, haddr, locate_offset h hm]
  rfl

/-- A breakpoint in a module that is not loaded waits. -/
theorem place_unloaded (haddr : bp.1.addr = ({} : AbsOrRelAddr).setReladdr ra)
    (hm : moduleNamed modules ra.modulename = none) :
    place modules bp = .ok (.deferred bp.reladdr) := by
  rw [place, haddr, locate_unloaded rfl rfl hm]
  rfl

/-- The load of its module activates an entry at its offset, with its count unless it shares the
address with another. -/
theorem exists_find?_load (ht : t.load m = some t') (hk : (k, n) ∈ t.deferred.entries)
    (hname : k.1.modulename = m.preferredName) (h : k.1.offset.isset.offset = true) :
    ∃ n', t'.active.find? (m.start + k.1.offset.offset) = some n' ∧
      ((∀ p ∈ t.deferred.entries, StandsFor m p (m.start + k.1.offset.offset) → p.1 = k) →
        n' = n) := by
  have hstands : StandsFor m (k, n) (m.start + k.1.offset.offset) := ⟨hname, resolve_offset m h⟩
  obtain ⟨n', hheld⟩ := Option.ne_none_iff_exists'.mp (held_ne_none hk hstands)
  refine ⟨n', by rw [find?_load ht, hheld, Option.some_or], fun halone => ?_⟩
  obtain ⟨p, hp, hx, rfl⟩ := exists_of_held hheld
  have hkey : p.1 = k := halone p hp hx
  have hfind := StdMap.find?_of_mem hp
  rw [hkey, StdMap.find?_of_mem hk] at hfind
  exact (Option.some.inj hfind).symm

end Tables

/-- The step neither deletes the entry of `k` nor loads its module. -/
def Activity.Spares (modules : List Module) (k : DeferredKey) : Activity → Prop
  | .call (.delBreakpoint bp) _ =>
    ∀ ra, Tables.place modules bp = .ok (.deferred ra) → ¬SameKey ra k
  | .callback _ (.eventModuleLoaded m) _ => m.preferredName ≠ k.1.modulename
  | _ => True

section Waits

variable {modules : List Module} {tb tb' : Tables} {bp : WireBreakpoint}
  {p : DeferredKey × SizeT}

/-- An accepted breakpoint takes no entry from the deferred table. -/
theorem Tables.waits_add (hadd : tb.add modules bp = .ok tb') (h : p ∈ tb.deferred.entries) :
    p ∈ tb'.deferred.entries := by
  obtain ⟨pl, hpl⟩ := exists_place_of_add hadd
  obtain ⟨rfl, -⟩ := add_eq_ok hpl hadd
  cases pl with
  | active addr => exact h
  | deferred ra => exact StdMap.mem_assign_of_mem (find?_of_add hpl hadd) h

/-- A deleted breakpoint takes its own. -/
theorem Tables.waits_delete (hdel : tb.delete modules bp = .ok tb')
    (hne : ∀ ra, place modules bp = .ok (.deferred ra) → ¬SameKey ra p.1)
    (h : p ∈ tb.deferred.entries) : p ∈ tb'.deferred.entries := by
  obtain ⟨pl, hpl⟩ := exists_place_of_delete hdel
  obtain ⟨rfl, -⟩ := (delete_eq_ok hpl).mp hdel
  cases pl with
  | active addr => exact h
  | deferred ra => exact List.mem_filter.mpr ⟨h, decide_eq_true (hne ra hpl)⟩

/-- What waits does so until it is deleted or its module is loaded. -/
theorem Book.Step.waits {k₀ k₁ : Book} {l : Activity} (hstep : k₀.Step l k₁)
    (hspares : l.Spares k₀.modules p.1) (h : p ∈ k₀.tables.deferred.entries) :
    p ∈ k₁.tables.deferred.entries := by
  cases hstep with
  | @call op env hw hop =>
    cases op with
    | addBreakpoint bp =>
      change p ∈ (k₀.tables.serve k₀.modules (.addBreakpoint bp)).deferred.entries
      cases hadd : k₀.tables.add k₀.modules bp with
      | ok tb =>
        rw [Tables.serve_add hadd]
        exact Tables.waits_add hadd h
      | error msg =>
        rw [Tables.serve_add_error hadd]
        exact h
    | delBreakpoint bp =>
      change p ∈ (k₀.tables.serve k₀.modules (.delBreakpoint bp)).deferred.entries
      cases hdel : k₀.tables.delete k₀.modules bp with
      | ok tb =>
        rw [Tables.serve_delete hdel]
        exact Tables.waits_delete hdel hspares h
      | error msg =>
        rw [Tables.serve_delete_error hdel]
        exact h
    | _ => exact h
  | hit hw => simpa using h
  | @load S u m env t hw ht =>
    change p ∈ t.deferred.entries
    rw [(Tables.load_eq_some ht).2]
    exact List.mem_filter.mpr ⟨h, decide_eq_true (Ne.symm hspares)⟩
  | _ => exact h

end Waits

namespace Target

variable {t t' t₁ t₂ : Target} {bp : WireBreakpoint} {k : DeferredKey} {n : SizeT}

/-- A call of `addBreakpoint` accepts the breakpoint. -/
def Accepts (t : Target) (bp : WireBreakpoint) (t' : Target) : Prop :=
  ∃ env w', t.waiting = none ∧
    t.world.alone .debug env .server (.addBreakpoint bp) = some (.returned .void, w') ∧
    t' = { t with world := w' }

/-- Run on without a step that deletes the entry of `k` or loads its module. -/
def RunsOn (k : DeferredKey) : Target → Target → Prop :=
  Relation.ReflTransGen (Moves (step .debug) fun t l => l.Spares t.world.modules k)

/-- An accepted breakpoint is added. -/
theorem Accepts.add (h : t.Accepts bp t') (hok : t.Ok) :
    t'.Ok ∧ t.world.globals.tables.add t.world.modules bp = .ok t'.world.globals.tables := by
  obtain ⟨env, w', hwait, hal, rfl⟩ := h
  have hserves := World.serves_addBreakpoint env .debug hok.mutex bp
  cases hadd : t.world.globals.tables.add t.world.modules bp with
  | error msg =>
    rw [hadd] at hserves
    obtain ⟨w₁, hal', -⟩ := hserves
    cases hal'.symm.trans hal
  | ok tb =>
    rw [hadd] at hserves
    obtain ⟨w₁, hal', l, rfl⟩ := hserves
    obtain ⟨-, rfl⟩ := Prod.mk.inj (Option.some.inj (hal'.symm.trans hal))
    exact ⟨hok.calm rfl ⟨rfl, rfl, rfl, rfl⟩, rfl⟩

/-- It is at its place then. -/
theorem Accepts.active {x : AppPc} (h : t.Accepts bp t') (hok : t.Ok)
    (hpl : Tables.place t.world.modules bp = .ok (.active x)) :
    t'.world.globals.breakpoints.find? x = some bp.1.count := by
  obtain ⟨-, hadd⟩ := h.add hok
  change t'.world.globals.tables.find? (.active x) = _
  rw [(Tables.add_eq_ok hpl hadd).1]
  exact (Tables.find?_put _ _ _ _).trans (if_pos (Tables.Place.Same.refl _))

theorem Accepts.waits {ra : DeferredKey} (h : t.Accepts bp t') (hok : t.Ok)
    (hpl : Tables.place t.world.modules bp = .ok (.deferred ra)) :
    (ra, bp.1.count) ∈ t'.world.globals.tables.deferred.entries := by
  obtain ⟨-, hadd⟩ := h.add hok
  rw [(Tables.add_eq_ok hpl hadd).1]
  exact StdMap.mem_assign_self (Tables.find?_of_add hpl hadd)

theorem waits_runsOn (hok : t.Ok) (h : (k, n) ∈ t.world.globals.tables.deferred.entries)
    (hrun : RunsOn k t t₁) :
    t₁.Ok ∧ (k, n) ∈ t₁.world.globals.tables.deferred.entries := by
  refine invariant_of_moves
    (I := fun s => s.Ok ∧ (k, n) ∈ s.world.globals.tables.deferred.entries) ⟨hok, h⟩
    (fun s l s' hI hspares hs => ?_) hrun
  obtain ⟨hok', hstep⟩ := book_step hI.1 hs
  exact ⟨hok', hstep.waits hspares hI.2⟩

/-- The load of the module of an entry that waits activates it at its offset, with its count unless
it shares the address with another. -/
theorem exists_find?_of_load {m : Module} {u : ℕ} {env : Env} (hok : t₁.Ok)
    (hk : (k, n) ∈ t₁.world.globals.tables.deferred.entries)
    (hname : k.1.modulename = m.preferredName) (h : k.1.offset.isset.offset = true)
    (hs : t₁.step .debug (.callback u (.eventModuleLoaded m) env) = some t₂) :
    ∃ n', t₂.world.globals.breakpoints.find? (m.start + k.1.offset.offset) = some n' ∧
      ((∀ p ∈ t₁.world.globals.deferredBreakpoints.entries,
        Tables.StandsFor m p (m.start + k.1.offset.offset) → p.1 = k) → n' = n) := by
  obtain ⟨-, hstep⟩ := book_step hok hs
  have ht : t₁.book.tables.load m = some t₂.book.tables := by
    generalize t₂.book = k₂ at hstep
    cases hstep with
    | load hw ht => exact ht
  exact Tables.exists_find?_load ht hk hname h

end Target

/-! ## In other runs -/

/-- Where the relative address is in runs with its module anywhere : `offset` behind the start. -/
structure RelAddr.Relocates (ra : RelAddr) (offset : Offset) : Prop where
  /-- `AbsOrRelAddr_to_AbsAddr` resolves it to this address. -/
  resolves : ∀ (w : World) (m : Module), moduleNamed w.modules ra.modulename = some m →
    w.Resolves (({} : AbsOrRelAddr).setReladdr ra) (m.start + offset)
  /-- A breakpoint that `addBreakpoint` accepts while the module is loaded is active there. -/
  active : ∀ (t t' : Target) (bp : WireBreakpoint) (m : Module),
    t.ReachedBy .debug (fun _ _ => True) → t.Accepts bp t' →
    bp.1.addr = ({} : AbsOrRelAddr).setReladdr ra →
    moduleNamed t.world.modules ra.modulename = some m →
    t'.world.globals.breakpoints.find? (m.start + offset) = some bp.1.count
  /-- One that it accepts before is active there once the module is loaded, with its count unless
  it shares the address with another. -/
  waits : ∀ (t t' t₁ t₂ : Target) (bp : WireBreakpoint) (m : Module) (u : ℕ) (env : Env),
    t.ReachedBy .debug (fun _ _ => True) → t.Accepts bp t' →
    bp.1.addr = ({} : AbsOrRelAddr).setReladdr ra →
    moduleNamed t.world.modules ra.modulename = none → t'.RunsOn bp.reladdr t₁ →
    m.preferredName = ra.modulename →
    t₁.step .debug (.callback u (.eventModuleLoaded m) env) = some t₂ →
    ∃ n, t₂.world.globals.breakpoints.find? (m.start + offset) = some n ∧
      ((∀ p ∈ t₁.world.globals.deferredBreakpoints.entries,
        Tables.StandsFor m p (m.start + offset) → p.1 = bp.reladdr) → n = bp.1.count)

theorem RelAddr.relocates {ra : RelAddr} (h : ra.offset.isset.offset = true) :
    ra.Relocates ra.offset.offset where
  resolves w m hm := World.resolves_of_locate (locate_offset h hm)
  active t t' bp m hreached hacc haddr hm :=
    hacc.active hreached.ok (Tables.place_offset haddr h hm)
  waits t t' t₁ t₂ bp m u env hreached hacc haddr hm hrun hname hs := by
    obtain rfl : ra = bp.reladdr.1 := by
      change ra = bp.1.addr.reladdr
      rw [haddr]
      rfl
    have hentry := hacc.waits hreached.ok (Tables.place_unloaded haddr hm)
    obtain ⟨hok, hentry⟩ := Target.waits_runsOn (hacc.add hreached.ok).1 hentry hrun
    exact Target.exists_find?_of_load hok hentry hname.symm h hs

namespace World

variable {w w' : World} {env : Env} {b : Build}

/-- The signed difference of two addresses on the same side of the sign does not overflow. -/
theorem ssubOverflow_of_msb {addr base : AppPc} (h : base.msb = addr.msb) :
    BitVec.ssubOverflow addr base = false := by
  rw [BitVec.ssubOverflow_eq, h]
  cases addr.msb <;> rfl

/-- What `getCodeBlock` returns is the block of the last stop. Where its start is in a loaded
module, the address it gives relative to the module is that of the block, here and wherever the
module is loaded. The signed difference in it wraps around only where the module lies across the
sign. -/
theorem codeBlock_relocates {c : CodeBlock}
    (hal : w.alone b env .server .getCodeBlock = some (.returned (.codeBlock c), w')) :
    ∃ block, w.globals.stoppedBlock = some block ∧ c.addr = block.1 ∧
      ∀ m, moduleAt w.modules block.1 = some m →
        moduleNamed w.modules m.preferredName = some m →
        ∃ mi, c.moduleinfo = some mi ∧ mi.base = m.start ∧
          mi.addr.modulename = m.preferredName ∧
          mi.addr.offset.isset = { offset := true } ∧
          (mi.base.msb = c.addr.msb → BitVec.ssubOverflow c.addr mi.base = false) ∧
          w.Resolves (({} : AbsOrRelAddr).setReladdr mi.addr) c.addr ∧
          mi.addr.Relocates (c.addr - mi.base) := by
  obtain ⟨block, bytes, hblock, rfl⟩ := eq_codeBlock_of_alone hal
  refine ⟨block, hblock, rfl, fun m hm hname => ?_⟩
  have hback : m.start + (block.1 - m.start) = block.1 := by bv_omega
  refine ⟨moduleInfo m block.1, congrArg (Option.map _) hm, rfl, rfl, rfl,
    ssubOverflow_of_msb, ?_, RelAddr.relocates rfl⟩
  have hres : locate w.modules (({} : AbsOrRelAddr).setReladdr (moduleInfo m block.1).addr) =
    .ok (some (m.start + (block.1 - m.start))) := locate_offset rfl hname
  exact resolves_of_locate (hres.trans (congrArg (Except.ok ∘ some) hback))

/-- A module in the upper half of the address space. -/
def upperLib : Module :=
  { lib with start := 0xffff800000000010, endPc := 0xffff800000000020 }

/-- The application has stopped at `upperLib + 4`. -/
def stoppedAbove : World where
  modules := [upperLib]
  globals := { stoppedBlock := some (0xffff800000000014, 0xffff800000000018) }

/-- The block is four times `nop`. -/
def fourNops : Env where
  bytes := some (List.replicate 4 (Char.ofNat 0x90))

theorem codeBlock_relocates_above :
    ∃ c w', stoppedAbove.alone .debug fourNops .server .getCodeBlock =
        some (.returned (.codeBlock c), w') ∧
      c.addr = 0xffff800000000014 ∧
      ∃ mi, c.moduleinfo = some mi ∧ mi.base = upperLib.start ∧
        mi.addr.modulename = upperLib.preferredName ∧
        mi.addr.offset.isset = { offset := true } ∧
        (mi.base.msb = c.addr.msb → BitVec.ssubOverflow c.addr mi.base = false) ∧
        stoppedAbove.Resolves (({} : AbsOrRelAddr).setReladdr mi.addr) c.addr ∧
        mi.addr.Relocates (c.addr - mi.base) := by
  obtain ⟨w', hal⟩ : ∃ w', stoppedAbove.alone .debug fourNops .server .getCodeBlock =
    some (.returned (.codeBlock (stoppedAbove.codeBlock
      (0xffff800000000014, 0xffff800000000018) (List.replicate 4 (Char.ofNat 0x90)))), w') :=
    ⟨_, rfl⟩
  obtain ⟨block, hblock, haddr, hrel⟩ := codeBlock_relocates hal
  obtain rfl : (0xffff800000000014, 0xffff800000000018) = block := Option.some.inj hblock
  exact ⟨_, w', hal, haddr, hrel upperLib (by decide) (by decide)⟩

end World

end ConcreteEval
