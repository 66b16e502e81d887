import ConcreteEval.Assertions
import ConcreteEval.Turns

/-!
# Building a block again

A callback that returns `DR_EMIT_DEFAULT` promises that running it again on the same block gives
the same block : DR does this, with `translating` set, to translate cached code.
`event_basic_block` does not look at `translating`; what it inserts is a function of the
breakpoints and the stop events that it finds (`World.builds_eq`).

A hit that fires and a load event change the breakpoints without a flush, and `executeUntilEvent`
stores its stop events before it asks for one. In every later state of a run, block still cached or
not, building again gives the same block exactly if the same of its instructions are at breakpoints
and relevant blocks are a stop event as before (`Machine.builds_eq_iff`).

It does so as long as no assignment changes what is read for the block
(`Machine.builds_of_keepsBlock`). By whole operations, all that changes it and asks for no flush is
a new breakpoint, a load event and a hit that fires (`Target.builds_of_flushes_eq`).
-/

namespace ConcreteEval

namespace World

/-- `event_basic_block` puts a clean call in front of the instruction, in a block with this first
and last address. -/
def Marks (active : StdMap AppPc SizeT) (firstpc lastpc : AppPc) (i : Instr) : Prop :=
  (∃ p ∈ active.entries, firstpc ≤ p.1 ∧ p.1 ≤ lastpc) ∧ active.find? i.pc ≠ none

instance (active : StdMap AppPc SizeT) (firstpc lastpc : AppPc) (i : Instr) :
    Decidable (Marks active firstpc lastpc i) :=
  inferInstanceAs (Decidable (_ ∧ _))

/-- Whether there is an entry at the address can matter to the block. -/
def Touches (bb : List Instr) (firstpc lastpc addr : AppPc) : Prop :=
  (firstpc ≤ addr ∧ addr ≤ lastpc) ∨ ∃ i ∈ bb, i.pc = addr

section Instrumented

variable {active active' : StdMap AppPc SizeT} {S : EventTypes} {firstpc lastpc : AppPc}
  {bb : List Instr}

theorem marks_iff {i : Instr} : Marks active firstpc lastpc i ↔
    (∃ addr, (firstpc ≤ addr ∧ addr ≤ lastpc) ∧ active.find? addr ≠ none) ∧
      active.find? i.pc ≠ none := by
  refine and_congr_left fun _ => ⟨?_, ?_⟩
  · rintro ⟨p, hp, hin⟩
    exact ⟨p.1, hin, by simp [StdMap.find?_of_mem hp]⟩
  · rintro ⟨addr, hin, hne⟩
    obtain ⟨n, hn⟩ := Option.ne_none_iff_exists'.mp hne
    obtain ⟨p, hp, hkey, -⟩ := StdMap.exists_mem_of_find? hn
    exact ⟨p, hp, sameKey_appPc.mp hkey ▸ hin⟩

/-- Maps with entries at the same of these addresses mark the same instructions. -/
theorem marks_congr (h : ∀ addr, Touches bb firstpc lastpc addr →
      (active.find? addr = none ↔ active'.find? addr = none)) {i : Instr} (hi : i ∈ bb) :
    Marks active firstpc lastpc i ↔ Marks active' firstpc lastpc i := by
  rw [marks_iff, marks_iff]
  refine and_congr (exists_congr fun addr => and_congr_right fun hin => ?_) ?_
  · exact not_congr (h addr (Or.inl hin))
  · exact not_congr (h i.pc (Or.inr ⟨i, hi, rfl⟩))

/-- The items of one instruction. -/
def marked (active : StdMap AppPc SizeT) (firstpc lastpc : AppPc) (i : Instr) : List Item :=
  if Marks active firstpc lastpc i then
    [.cleanCall (.updateFastforwardCount i.pc firstpc lastpc), .app i]
  else [.app i]

theorem insertBreakpointCalls_eq (h : ∃ p ∈ active.entries, firstpc ≤ p.1 ∧ p.1 ≤ lastpc) :
    insertBreakpointCalls active firstpc lastpc bb = bb.flatMap (marked active firstpc lastpc) := by
  induction bb with
  | nil => rfl
  | cons i bb ih =>
    have hcount : active.count i.pc ≠ 0 ↔ Marks active firstpc lastpc i := by
      rw [Ne, StdMap.count_eq_zero]
      exact ⟨fun hi => ⟨h, hi⟩, fun hi => hi.2⟩
    rw [insertBreakpointCalls, List.flatMap_cons, ← ih, marked]
    by_cases hi : Marks active firstpc lastpc i
    · rw [if_pos (hcount.mpr hi), if_pos hi]
      rfl
    · rw [if_neg (mt hcount.mp hi), if_neg hi]
      rfl

theorem map_app_eq (h : ¬∃ p ∈ active.entries, firstpc ≤ p.1 ∧ p.1 ≤ lastpc) :
    bb.map .app = bb.flatMap (marked active firstpc lastpc) := by
  induction bb with
  | nil => rfl
  | cons i bb ih =>
    have hi : ¬Marks active firstpc lastpc i := fun hi => h hi.1
    rw [List.map_cons, List.flatMap_cons, ih, marked, if_neg hi]
    rfl

/-- The elements of an instrumented block, instruction by instruction. -/
theorem instrumented_eq :
    instrumented active S bb firstpc lastpc =
      (if EventType.relevantBlock ∈ S then [.cleanCall (.relevantBlockCleanCall firstpc lastpc)]
        else []) ++ bb.flatMap (marked active firstpc lastpc) := by
  have hany : (active.entries.any fun p => firstpc ≤ p.1 ∧ p.1 ≤ lastpc) = true ↔
      ∃ p ∈ active.entries, firstpc ≤ p.1 ∧ p.1 ≤ lastpc := by simp
  unfold instrumented
  by_cases h : ∃ p ∈ active.entries, firstpc ≤ p.1 ∧ p.1 ≤ lastpc
  · simp only [hany.mpr h, if_true, insertBreakpointCalls_eq h]
    split_ifs <;> rfl
  · have hfalse := Bool.eq_false_iff.mpr (mt hany.mp h)
    simp only [hfalse, Bool.false_eq_true, if_false, map_app_eq h]
    split_ifs <;> rfl

/-- Two blocks of the same instructions are the same if the same instructions are marked. -/
theorem flatMap_marked_eq_iff :
    bb.flatMap (marked active firstpc lastpc) = bb.flatMap (marked active' firstpc lastpc) ↔
      ∀ i ∈ bb, (Marks active firstpc lastpc i ↔ Marks active' firstpc lastpc i) := by
  induction bb with
  | nil => simp
  | cons i bb ih =>
    rw [List.flatMap_cons, List.flatMap_cons, List.forall_mem_cons, ← ih, marked, marked]
    by_cases h : Marks active firstpc lastpc i
    · by_cases h' : Marks active' firstpc lastpc i
      · simp [h, h']
      · simp [h, h']
    · by_cases h' : Marks active' firstpc lastpc i
      · simp [h, h']
      · simp [h, h']

theorem instrumented_eq_iff {S' : EventTypes} (hbb : bb ≠ []) :
    instrumented active S bb firstpc lastpc = instrumented active' S' bb firstpc lastpc ↔
      (∀ i ∈ bb, (Marks active firstpc lastpc i ↔ Marks active' firstpc lastpc i)) ∧
        (EventType.relevantBlock ∈ S ↔ EventType.relevantBlock ∈ S') := by
  -- The items of the instructions do not start with the call for relevant blocks.
  have hhead : ∀ (active : StdMap AppPc SizeT) (X : List Item),
      bb.flatMap (marked active firstpc lastpc) ≠
        .cleanCall (.relevantBlockCleanCall firstpc lastpc) :: X := by
    intro active X h
    obtain ⟨i, bb', rfl⟩ := List.exists_cons_of_ne_nil hbb
    rw [List.flatMap_cons, marked] at h
    split_ifs at h
    · cases h
    · cases h
  rw [instrumented_eq, instrumented_eq, ← flatMap_marked_eq_iff]
  by_cases he : EventType.relevantBlock ∈ S
  · by_cases he' : EventType.relevantBlock ∈ S'
    · simp [he, he']
    · rw [if_pos he, if_neg he', List.nil_append, List.singleton_append]
      exact iff_of_false (fun h => hhead _ _ h.symm) fun h => he' (h.2.mp he)
  · by_cases he' : EventType.relevantBlock ∈ S'
    · rw [if_neg he, if_pos he', List.nil_append, List.singleton_append]
      exact iff_of_false (hhead _ _) fun h => he (h.2.mpr he')
    · simp [he, he']

end Instrumented

/-- The first address of a block, and its last. -/
def bounds (bb : List Instr) : Option (AppPc × AppPc) :=
  match bb.head?, bb.getLast? with
  | some first, some last => some (first.pc, last.pc + BitVec.ofNat 64 last.length)
  | _, _ => none

/-- What `event_basic_block` makes of the block, on the thread `a`. -/
def builds (w : World) (b : Build) (env : Env) (a : Actor) (bb : List Instr) :
    Option (List Item) :=
  match w.alone b env a (.eventBasicBlock bb) with
  | some (.returned (.items l), _) => some l
  | _ => none

/-- `event_basic_block` can run on the thread `a`, for the stop events `S`. -/
structure CanBuild (w : World) (a : Actor) (S : EventTypes) : Prop where
  mutex : w.mutex = none
  acts : w.Acts a
  stopEvents : w.globals.stopEvents = some S

/-- `e` is one of the stop events. -/
def StopsAt (w : World) (e : EventType) : Prop :=
  ∃ S, w.globals.stopEvents = some S ∧ e ∈ S

variable {b : Build} {w w' : World} {a : Actor} {S : EventTypes} {env : Env}
  {bb : List Instr} {firstpc lastpc : AppPc} {items : List Item}

theorem CanBuild.stopsAt_iff (h : w.CanBuild a S) {e : EventType} : w.StopsAt e ↔ e ∈ S := by
  unfold StopsAt
  rw [h.stopEvents]
  exact ⟨fun ⟨_, hS, he⟩ => Option.some.inj hS ▸ he, fun he => ⟨S, rfl, he⟩⟩

theorem builds_eq (h : w.CanBuild a S) (hbb : bounds bb = some (firstpc, lastpc)) :
    w.builds b env a bb = some (instrumented w.globals.breakpoints S bb firstpc lastpc) := by
  unfold bounds at hbb
  split at hbb
  · rename_i first last hfirst hlast
    obtain ⟨rfl, rfl⟩ := Prod.mk.inj (Option.some.inj hbb)
    have hy := yields_eventBasicBlock env a h.mutex hfirst hlast h.stopEvents
    have hal : ∃ w', w.alone b env a (.eventBasicBlock bb) =
        some (.returned (.items (instrumented w.globals.breakpoints S bb first.pc
          (last.pc + BitVec.ofNat 64 last.length))), w') ∧ w.Logs w' :=
      alone_eq_some (.bind hy id (.ret _)) h.acts rfl
    obtain ⟨w', hal, -⟩ := hal
    unfold builds
    rw [hal]
  · cases hbb

/-- A block is built only where `event_basic_block` gets the mutex and finds stop events. -/
theorem exists_canBuild (h : w.builds b env a bb = some items)
    (hbb : bounds bb = some (firstpc, lastpc)) : ∃ S, w.CanBuild a S := by
  unfold bounds at hbb
  split at hbb
  · rename_i first last hfirst hlast
    obtain ⟨x, w', hal⟩ : ∃ x w', w.alone b env a (.eventBasicBlock bb) = some (x, w') := by
      unfold builds at h
      split at h
      · exact ⟨_, _, ‹_›⟩
      · cases h
    obtain ⟨k, hk⟩ : ∃ k, eventBasicBlock bb = .act .drMutexLock k := by
      unfold eventBasicBlock
      rw [hfirst, hlast]
      exact ⟨_, rfl⟩
    have hlock : (Operation.eventBasicBlock bb).prog b =
        .act .drMutexLock fun r => (k r).bind fun l => .ret (.items l) := by
      change (eventBasicBlock bb).bind _ = _
      rw [hk]
      rfl
    obtain ⟨hm, hacts⟩ := free_of_alone hlock hal
    cases hS : w.globals.stopEvents with
    | some S => exact ⟨S, hm, hacts, hS⟩
    | none =>
      have hy : Yields env a w (eventBasicBlock bb) (fault .emptyOptional)
          { w with mutex := some a } := by
        unfold eventBasicBlock
        rw [hfirst, hlast]
        exact .step (answer_lock hm) id
          (.step rfl id (.bind_stop (yields_stopEventsCount_none hS)))
      have hprog : Yields env a w ((Operation.eventBasicBlock bb).prog b) (fault .emptyOptional)
          { w with mutex := some a } := .bind_stop hy
      cases (alone_logs hprog hacts hal).1
  · cases hbb

/-- What `event_basic_block` reads of the two worlds for the block is the same. -/
structure SameBlock (bb : List Instr) (firstpc lastpc : AppPc) (w w' : World) : Prop where
  entries : ∀ addr, Touches bb firstpc lastpc addr →
    (w'.globals.breakpoints.find? addr = none ↔ w.globals.breakpoints.find? addr = none)
  relevant : w'.StopsAt .relevantBlock ↔ w.StopsAt .relevantBlock

theorem SameBlock.trans {w₁ : World} (h : SameBlock bb firstpc lastpc w w')
    (h' : SameBlock bb firstpc lastpc w' w₁) : SameBlock bb firstpc lastpc w w₁ :=
  ⟨fun addr ht => (h'.entries addr ht).trans (h.entries addr ht), h'.relevant.trans h.relevant⟩

theorem stopsAt_congr (h : w'.globals.stopEvents = w.globals.stopEvents) {e : EventType} :
    w'.StopsAt e ↔ w.StopsAt e := by
  unfold StopsAt
  rw [h]

theorem sameBlock_of_eq (hbps : w'.globals.breakpoints = w.globals.breakpoints)
    (hstop : w'.globals.stopEvents = w.globals.stopEvents) :
    SameBlock bb firstpc lastpc w w' :=
  ⟨fun addr _ => by rw [hbps], stopsAt_congr hstop⟩

/-- The assignment keeps what is read for the block : it stores the count of an entry that is there,
erases none that is, and stores stop events with relevant blocks if there are such now. -/
def KeepsBlock (bb : List Instr) (firstpc lastpc : AppPc) (w : World) : Write → Prop
  | .breakpoint addr _ =>
    Touches bb firstpc lastpc addr → w.globals.breakpoints.find? addr ≠ none
  | .eraseBreakpoint addr =>
    Touches bb firstpc lastpc addr → w.globals.breakpoints.find? addr = none
  | .stopEvents S => EventType.relevantBlock ∈ S ↔ w.StopsAt .relevantBlock
  | _ => True

/-- An action that is no assignment keeps it, too. -/
theorem sameBlock_answer {o : Op} {r : o.Reply} (ha : w.answer env a o = some (r, w'))
    (hkeep : ∀ x, o = .write x → KeepsBlock bb firstpc lastpc w x) :
    SameBlock bb firstpc lastpc w w' := by
  rw [answer_eq ha]
  cases o with
  | write x =>
    have hx := hkeep x rfl
    cases x with
    | breakpoint addr n =>
      refine ⟨fun addr' ht => ?_, Iff.rfl⟩
      change (w.globals.breakpoints.assign addr n).find? addr' = none ↔ _
      rw [StdMap.find?_assign]
      split_ifs with hsame
      · obtain rfl := sameKey_appPc.mp hsame
        exact iff_of_false not_false (hx ht)
      · exact Iff.rfl
    | eraseBreakpoint addr =>
      refine ⟨fun addr' ht => ?_, Iff.rfl⟩
      change (w.globals.breakpoints.erase addr).find? addr' = none ↔ _
      rw [StdMap.find?_erase]
      split_ifs with hsame
      · obtain rfl := sameKey_appPc.mp hsame
        exact iff_of_true rfl (hx ht)
      · exact Iff.rfl
    | stopEvents S =>
      have hstop : EventType.relevantBlock ∈ S ↔ w.StopsAt .relevantBlock := hx
      refine ⟨fun _ _ => Iff.rfl, ?_⟩
      rw [← hstop]
      constructor
      · rintro ⟨S', hS', he⟩
        exact Option.some.inj hS' ▸ he
      · exact fun he => ⟨S, rfl, he⟩
    | _ => exact sameBlock_of_eq rfl rfl
  | _ => exact sameBlock_of_eq rfl rfl

/-- Once set, `stop_events` stays set. -/
theorem stopEvents_answer {o : Op} {r : o.Reply} (h : w.globals.stopEvents ≠ none)
    (ha : w.answer env a o = some (r, w')) : w'.globals.stopEvents ≠ none := by
  rw [answer_eq ha]
  cases o with
  | write x =>
    cases x with
    | stopEvents S => exact nofun
    | _ => exact h
  | _ => exact h

end World

namespace Machine

variable {b : Build} {m₀ m m' : Machine} {u : ℕ} {a : Actor} {env env' : Env} {bb : List Instr}
  {items : List Item} {firstpc lastpc : AppPc}

theorem stopEvents_step {l : Label} (h : m.world.globals.stopEvents ≠ none)
    (hs : m.step b l = some m') : m'.world.globals.stopEvents ≠ none := by
  cases l with
  | start a op =>
    obtain ⟨-, -, rfl⟩ := step_start hs
    simpa using h
  | action a env =>
    obtain ⟨op, o, k, r, w', -, hp, rfl⟩ := step_action hs
    obtain ⟨-, w₁, ha, rfl⟩ := World.perform_eq_some hp
    have hset : w₁.globals.stopEvents ≠ none := World.stopEvents_answer h ha
    exact hset
  | finish a =>
    obtain ⟨op, p, x, -, -, rfl⟩ := step_finish hs
    exact h
  | unload modinfo =>
    obtain ⟨-, rfl⟩ := step_unload hs
    exact h

theorem stopEvents_goes (h : m₀.world.globals.stopEvents ≠ none) (hrun : Goes b m₀ m) :
    m.world.globals.stopEvents ≠ none :=
  invariant_of_moves (I := fun m => m.world.globals.stopEvents ≠ none) h
    (fun _ _ _ h _ hs => stopEvents_step h hs) hrun

variable (m₀ m) in
/-- After a block is built, building it again gives the same if the same of its instructions are at
breakpoints, and relevant blocks are a stop event in both states or in none. -/
theorem builds_eq_iff (hb : m₀.world.builds b env (.app u) bb = some items) (hrun : Goes b m₀ m)
    (hm : m.world.mutex = none) (ha : m.world.Acts a)
    (hbb : World.bounds bb = some (firstpc, lastpc)) :
    m.world.builds b env' a bb = some items ↔
      (∀ i ∈ bb, (World.Marks m.world.globals.breakpoints firstpc lastpc i ↔
        World.Marks m₀.world.globals.breakpoints firstpc lastpc i)) ∧
      (m.world.StopsAt .relevantBlock ↔ m₀.world.StopsAt .relevantBlock) := by
  obtain ⟨S₀, h₀⟩ := World.exists_canBuild hb hbb
  have hset : m₀.world.globals.stopEvents ≠ none := by simp [h₀.stopEvents]
  obtain ⟨S, hS⟩ := Option.ne_none_iff_exists'.mp (stopEvents_goes hset hrun)
  have h : m.world.CanBuild a S := ⟨hm, ha, hS⟩
  have hne : bb ≠ [] := by
    rintro rfl
    cases hbb
  rw [← hb, World.builds_eq h hbb, World.builds_eq h₀ hbb, Option.some.injEq,
    World.instrumented_eq_iff hne, h.stopsAt_iff, h₀.stopsAt_iff]

/-- The step makes no assignment that changes what is read for the block. -/
def KeepsBlock (bb : List Instr) (firstpc lastpc : AppPc) (m : Machine) (l : Label) : Prop :=
  ∀ a x, m.act l = some (a, .write x) → m.world.KeepsBlock bb firstpc lastpc x

theorem sameBlock_step {l : Label} (hs : m.step b l = some m')
    (hkeep : m.KeepsBlock bb firstpc lastpc l) :
    World.SameBlock bb firstpc lastpc m.world m'.world := by
  cases l with
  | start a op =>
    obtain ⟨-, -, rfl⟩ := step_start hs
    exact World.sameBlock_of_eq (by simp) (by simp)
  | action a env =>
    obtain ⟨op, o, k, r, w', hrun, hp, rfl⟩ := step_action hs
    obtain ⟨-, w₁, ha, rfl⟩ := World.perform_eq_some hp
    have hsame : World.SameBlock bb firstpc lastpc m.world w₁ :=
      World.sameBlock_answer ha fun x hx => hkeep a x (hx ▸ act_action hrun env)
    exact hsame.trans (World.sameBlock_of_eq rfl rfl)
  | finish a =>
    obtain ⟨op, p, x, -, -, rfl⟩ := step_finish hs
    exact World.sameBlock_of_eq rfl rfl
  | unload modinfo =>
    obtain ⟨-, rfl⟩ := step_unload hs
    exact World.sameBlock_of_eq rfl rfl

/-- A run without such an assignment builds the block as before. -/
theorem builds_of_keepsBlock (hb : m₀.world.builds b env (.app u) bb = some items)
    (hrun : Relation.ReflTransGen (Moves (step b) fun m l => m.KeepsBlock bb firstpc lastpc l) m₀ m)
    (hm : m.world.mutex = none) (ha : m.world.Acts a)
    (hbb : World.bounds bb = some (firstpc, lastpc)) :
    m.world.builds b env' a bb = some items := by
  have hsame : World.SameBlock bb firstpc lastpc m₀.world m.world :=
    invariant_of_moves (I := fun m => World.SameBlock bb firstpc lastpc m₀.world m.world)
      (World.sameBlock_of_eq rfl rfl)
      (fun _ _ _ h hkeep hs => h.trans (sameBlock_step hs hkeep)) hrun
  exact (builds_eq_iff m₀ m hb (moves_mono (fun _ _ _ => trivial) hrun) hm ha hbb).mpr
    ⟨fun i hi => World.marks_congr hsame.entries hi, hsame.relevant⟩

/-- The server adds a breakpoint at 16 with the count `n`, and resumes. -/
def countsAt (n : I64) : List Label :=
  startUp ++ [.start .server (.addBreakpoint (absBreakpoint 16 n))] ++ actions .server 4 ++
    [.finish .server] ++ resumes {}

/-- A thread hits the breakpoint, and ends its clean call after `n` actions. -/
def hitsAt (n : ℕ) : List Label :=
  [.start (.app 1) (.cleanCall (.updateFastforwardCount 16 16 20))] ++ actions (.app 1) n ++
    [.finish (.app 1)]

/-- With a hit to go the block is built as before. -/
theorem builds_eq_iff_two :
    (after .debug [] (countsAt 2 ++ hitsAt 4)).world.builds .debug {} (.app 1) [⟨16, 4⟩] =
      some [.cleanCall (.updateFastforwardCount 16 16 20), .app ⟨16, 4⟩] := by
  have hb : (after .debug [] (countsAt 2)).world.builds .debug {} (.app 1) [⟨16, 4⟩] =
      some [.cleanCall (.updateFastforwardCount 16 16 20), .app ⟨16, 4⟩] := rfl
  have hhit : (hitsAt 4).foldlM (step .debug) (after .debug [] (countsAt 2)) =
      some (after .debug [] (countsAt 2 ++ hitsAt 4)) := rfl
  have hrun : Goes .debug (after .debug [] (countsAt 2))
      (after .debug [] (countsAt 2 ++ hitsAt 4)) := moves_of_foldlM (fun _ _ _ => trivial) hhit
  have hbounds : World.bounds [⟨16, 4⟩] = some (16, 20) := rfl
  have hstop : (after .debug [] (countsAt 2 ++ hitsAt 4)).world.globals.stopEvents =
      (after .debug [] (countsAt 2)).world.globals.stopEvents := rfl
  have hfree : (after .debug [] (countsAt 2 ++ hitsAt 4)).world.mutex = none := rfl
  have hruns : (after .debug [] (countsAt 2 ++ hitsAt 4)).world.suspended = false := rfl
  refine (builds_eq_iff (after .debug [] (countsAt 2)) (after .debug [] (countsAt 2 ++ hitsAt 4)) hb
    hrun hfree (Or.inl hruns) hbounds).mpr ⟨?_, ?_⟩
  · decide
  · unfold World.StopsAt
    rw [hstop]

/-- Once the breakpoint has fired the block is built without the call, and nothing has been flushed
since. -/
theorem not_builds_eq :
    ¬∀ (m₀ m : Machine) (u : ℕ) (a : Actor) (env env' : Env) (bb : List Instr)
      (items : List Item), m₀.Reachable .debug →
      m₀.world.builds .debug env (.app u) bb = some items → Goes .debug m₀ m →
      m.world.flushes = m₀.world.flushes → m.world.mutex = none → m.world.Acts a →
      m.world.builds .debug env' a bb = some items := by
  intro h
  have hb : (after .debug [] (countsAt 1)).world.builds .debug {} (.app 1) [⟨16, 4⟩] =
      some [.cleanCall (.updateFastforwardCount 16 16 20), .app ⟨16, 4⟩] := rfl
  have hhit : (hitsAt 6).foldlM (step .debug) (after .debug [] (countsAt 1)) =
      some (after .debug [] (countsAt 1 ++ hitsAt 6)) := rfl
  have hrun : Goes .debug (after .debug [] (countsAt 1))
      (after .debug [] (countsAt 1 ++ hitsAt 6)) := moves_of_foldlM (fun _ _ _ => trivial) hhit
  have hkept₀ : (after .debug [] (countsAt 1)).world.flushes = 1 := rfl
  have hkept : (after .debug [] (countsAt 1 ++ hitsAt 6)).world.flushes = 1 := rfl
  have hbuilds : (after .debug [] (countsAt 1 ++ hitsAt 6)).world.builds .debug {} (.app 1)
      [⟨16, 4⟩] = some [.app ⟨16, 4⟩] := rfl
  have hfree : (after .debug [] (countsAt 1 ++ hitsAt 6)).world.mutex = none := rfl
  have hruns : (after .debug [] (countsAt 1 ++ hitsAt 6)).world.suspended = false := rfl
  have heq := h (after .debug [] (countsAt 1)) (after .debug [] (countsAt 1 ++ hitsAt 6)) 1 (.app 1)
    {} {} [⟨16, 4⟩] _ (reachable_after .debug [] _) hb hrun (hkept.trans hkept₀.symm) hfree
    (Or.inl hruns)
  cases hbuilds.symm.trans heq

end Machine

/-! ## Changes without a flush -/

namespace Target

variable {t t₁ : Target} {l : Activity} {u : ℕ} {a : Actor} {env env' : Env} {bb : List Instr}
  {items : List Item} {firstpc lastpc : AppPc}

/-- The step may change what is read for a block and ask for no flush : it adds a breakpoint, loads
a module, or is a hit that fires. -/
def Rebuilds (t : Target) : Activity → Prop
  | .call (.addBreakpoint _) _ | .callback _ (.eventModuleLoaded _) _ => True
  | .callback _ (.cleanCall (.updateFastforwardCount addr _ _)) _ =>
    t.world.globals.breakpoints.find? addr = some 1
  | _ => False

/-- A call leaves the active breakpoints if it adds none and deletes none of them. -/
theorem active_serve {modules : List Module} {tb : Tables} {op : Operation}
    (hadd : ∀ bp, op ≠ .addBreakpoint bp)
    (hdel : ∀ bp addr, op = .delBreakpoint bp → Tables.place modules bp = .ok (.active addr) →
      tb.active.find? addr = none) : (tb.serve modules op).active = tb.active := by
  cases op with
  | addBreakpoint bp => exact absurd rfl (hadd bp)
  | delBreakpoint bp =>
    cases ht : tb.delete modules bp with
    | error msg => rw [Tables.serve_delete_error ht]
    | ok tb' =>
      obtain ⟨pl, hpl⟩ := Tables.exists_place_of_delete ht
      obtain ⟨rfl, hfound⟩ := (Tables.delete_eq_ok hpl).mp ht
      rw [Tables.serve_delete ht]
      cases pl with
      | active addr => exact absurd (hdel bp addr rfl hpl) hfound
      | deferred ra => rfl
  | _ => rfl

theorem sameBlock_call {op : Operation} (hok : t.Ok) (hs : t.step .debug (.call op env) = some t₁)
    (hadd : ∀ bp, op ≠ .addBreakpoint bp) (hquiet : t.Quiet (.call op env)) :
    World.SameBlock bb firstpc lastpc t.world t₁.world := by
  obtain ⟨-, hq, x, w, hal, rfl⟩ := step_call hs
  have henter : t.world.enter op = t.world := by
    cases op <;> first | rfl | cases hq
  obtain ⟨q, hy⟩ := World.yields_query env .server .debug hq hok.mutex
  rw [← henter] at hy
  obtain ⟨-, log, rfl⟩ := World.alone_logs hy (Or.inr rfl) hal
  have hactive : (t.world.globals.tables.serve t.world.modules op).active =
      t.world.globals.tables.active :=
    active_serve hadd fun bp addr hbp => hquiet.delete bp env addr (hbp ▸ rfl)
  rw [henter]
  exact World.sameBlock_of_eq hactive rfl

/-- A hit that does not fire leaves the entries where they are. -/
theorem find?_hit_eq_none {tb : Tables} {addr : AppPc} (h : tb.active.find? addr ≠ some 1)
    (addr' : AppPc) : (tb.hit addr).active.find? addr' = none ↔ tb.active.find? addr' = none := by
  by_cases haddr : addr' = addr
  · rw [haddr, Tables.find?_hit]
    cases hn : tb.active.find? addr with
    | none => rfl
    | some n =>
      have hn1 : ¬n - 1 = 0 := fun hzero => h (hn.trans (congrArg some (by bv_omega)))
      rw [Option.bind_some, if_neg hn1]
      exact iff_of_false (Option.some_ne_none _) (Option.some_ne_none _)
  · rw [Tables.find?_hit_of_ne haddr]

theorem sameBlock_callback {op : Operation} (hok : t.Ok)
    (hs : t.step .debug (.callback u op env) = some t₁) (hr : ¬t.Rebuilds (.callback u op env)) :
    World.SameBlock bb firstpc lastpc t.world t₁.world := by
  obtain ⟨hok₁, hstep⟩ := book_step hok hs
  have hstop : ∀ S, t.waiting = some S → t₁.book.waiting = some S →
      t₁.world.globals.stopEvents = t.world.globals.stopEvents := by
    intro S hS hS₁
    rw [hok.stopEvents S hS, hok₁.stopEvents S hS₁]
  have htables : t₁.world.globals.tables = t₁.book.tables := rfl
  generalize t₁.book = k at hstep hstop htables
  cases hstep with
  | @hit S u addr start endPc env hw =>
    have hactive : t₁.world.globals.breakpoints = (t.world.globals.tables.hit addr).active :=
      congrArg Tables.active htables
    have hfire : t.world.globals.tables.active.find? addr ≠ some 1 := hr
    refine ⟨fun addr' _ => ?_, World.stopsAt_congr (hstop S hw hw)⟩
    rw [hactive]
    exact find?_hit_eq_none hfire addr'
  | relevant hw => exact World.sameBlock_of_eq (congrArg Tables.active htables) (hstop _ hw hw)
  | load hw ht => exact absurd trivial hr
  | build hw hfirst hlast =>
    exact World.sameBlock_of_eq (congrArg Tables.active htables) (hstop _ hw hw)

/-- Any other step that asks for no flush keeps what is read for a block. -/
theorem sameBlock_of_flushes_eq (hok : t.Ok) (hs : t.step .debug l = some t₁)
    (hr : ¬t.Rebuilds l) (hno : t₁.world.flushes = t.world.flushes) :
    World.SameBlock bb firstpc lastpc t.world t₁.world := by
  have hquiet := (flushes_eq_iff_quiet hok hs).mp hno
  cases l with
  | call op env =>
    refine sameBlock_call hok hs ?_ hquiet
    rintro bp rfl
    exact hr trivial
  | resume S => exact absurd rfl (hquiet.resume S)
  | stop env =>
    obtain ⟨-, -, log, rfl⟩ := hok.stop_eq hs
    exact World.sameBlock_of_eq rfl rfl
  | callback u op env => exact sameBlock_callback hok hs hr
  | unload modinfo =>
    obtain ⟨-, rfl⟩ := step_unload hs
    exact World.sameBlock_of_eq rfl rfl
  | evict n =>
    obtain rfl := Option.some.inj hs
    exact World.sameBlock_of_eq rfl rfl

/-- In a run by whole operations that adds no breakpoint, loads no module and in which none fires,
a block is built as before until a flush is asked for. -/
theorem builds_of_flushes_eq (hok : t.Ok)
    (hb : t.world.builds .debug env (.app u) bb = some items)
    (hrun : Relation.ReflTransGen (Moves (step .debug) fun t l => ¬t.Rebuilds l) t t₁)
    (hno : t₁.world.flushes = t.world.flushes) (ha : t₁.world.Acts a)
    (hbb : World.bounds bb = some (firstpc, lastpc)) :
    t₁.world.builds .debug env' a bb = some items := by
  let I : Target → Prop := fun s => s.Ok ∧ t.world.flushes ≤ s.world.flushes ∧
    (s.world.flushes = t.world.flushes → World.SameBlock bb firstpc lastpc t.world s.world)
  have hinv : I t₁ := by
    refine invariant_of_moves (I := I) ⟨hok, le_refl _, fun _ => World.sameBlock_of_eq rfl rfl⟩
      ?_ hrun
    rintro s l s' ⟨hoks, hle, hsame⟩ hr hs
    have hle' := flushes_le hoks hs
    refine ⟨(book_step hoks hs).1, hle.trans hle', fun heq => ?_⟩
    have hs₀ : s.world.flushes = t.world.flushes := by omega
    exact (hsame hs₀).trans (sameBlock_of_flushes_eq hoks hs hr (heq.trans hs₀.symm))
  obtain ⟨hok₁, -, hsame⟩ := hinv
  obtain ⟨hentries, hrelevant⟩ := hsame hno
  exact (Machine.builds_eq_iff (t.machine .debug) (t₁.machine .debug) hb (machine_goes_run hrun)
    hok₁.mutex ha hbb).mpr ⟨fun i hi => World.marks_congr hentries hi, hrelevant⟩

end Target

end ConcreteEval
