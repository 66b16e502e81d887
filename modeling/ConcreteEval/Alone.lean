import ConcreteEval.Client
import ConcreteEval.Tables

/-!
# Operations that run alone

What an operation does when no other thread acts before it has ended : `World.run` answers its
actions one after the other. Each operation that works on the breakpoints is shown to compute
the function on the tables that says what it is for. The results are stated up to the log
(`World.Logs`); nothing else of the world changes but what a result names. What goes to the log is
said apart, by the actions that a program performs (`World.Performs`).
-/

namespace ConcreteEval

namespace World

/-- Run `p` on the thread `a` with nobody else acting. -/
def run {α : Type} (env : Env) (a : Actor) (p : Dr α) (w : World) : Dr α × World :=
  p.exec (fun o w => w.perform env a o) w

/-- The thread `a` is not suspended. -/
def Acts (w : World) (a : Actor) : Prop :=
  w.suspended = false ∨ a = .server

/-- The world is `w`, but for the log. -/
def Logs (w w' : World) : Prop :=
  ∃ l, w' = { w with log := l }

variable {env : Env} {a : Actor} {w w' w₁ : World} {α β : Type}

/-- Run on the thread `a` from `w`, where it is not suspended, the program `p` comes to `q` and
leaves `w₁`, up to the log. -/
def Yields {α : Type} (env : Env) (a : Actor) (w : World) (p q : Dr α) (w₁ : World) : Prop :=
  w.Acts a → ∀ w', w.Logs w' → ∃ w₁', run env a p w' = (q, w₁') ∧ w₁.Logs w₁'

variable {w₂ : World}

theorem Logs.note (h : w.Logs w') (x : Mark) : w.Logs (w'.note x) := by
  obtain ⟨l, rfl⟩ := h
  exact ⟨x :: l, rfl⟩

/-- What DR answers does not depend on the log. -/
theorem Logs.answer (h : w.Logs w') {o : Op} {r : o.Reply}
    (ha : w.answer env a o = some (r, w₁)) :
    ∃ w₁', w'.answer env a o = some (r, w₁') ∧ w₁.Logs w₁' := by
  obtain ⟨l, rfl⟩ := h
  cases o with
  | drMutexLock =>
    obtain ⟨hm, rfl⟩ : w.mutex = none ∧ _ = w₁ := by simpa [World.answer] using ha
    exact ⟨_, by simp [World.answer, hm], l, rfl⟩
  | drEventWait =>
    obtain ⟨he, rfl⟩ : w.event = true ∧ _ = w₁ := by simpa [World.answer] using ha
    exact ⟨_, by simp [World.answer, he], l, rfl⟩
  | _ =>
    obtain ⟨rfl, rfl⟩ := Prod.mk.inj (Option.some.inj ha)
    exact ⟨_, rfl, l, rfl⟩

/-- A thread that is not suspended gets this answer. -/
theorem Logs.perform (h : w.Logs w') (hw : w.Acts a) {o : Op} {r : o.Reply}
    (ha : w.answer env a o = some (r, w₁)) :
    ∃ w₁', w'.perform env a o = some (r, w₁') ∧ w₁.Logs w₁' := by
  obtain ⟨w₁', ha', hl⟩ := h.answer ha
  refine ⟨w₁'.note (.did a o), ?_, hl.note _⟩
  have hacts : ¬(w'.suspended = true ∧ a ≠ .server) := by
    obtain ⟨l, rfl⟩ := h
    rintro ⟨hs, hne⟩
    rcases hw with h | h
    · cases hs.symm.trans h
    · exact hne h
  simp [World.perform, hacts, ha']

namespace Yields

theorem ret (x : α) : Yields env a w (.ret x) (.ret x) w :=
  fun _ w' h => ⟨w', rfl, h⟩

theorem stop (e : Halt) : Yields env a w (.stop e : Dr α) (.stop e) w :=
  fun _ w' h => ⟨w', rfl, h⟩

/-- One action that is answered. -/
theorem act {o : Op} {k : o.Reply → Dr α} {r : o.Reply} {q : Dr α}
    (ha : w.answer env a o = some (r, w₁)) (h : Yields env a w₁ (k r) q w₂)
    (hs : w₁.Acts a) : Yields env a w (.act o k) q w₂ := by
  intro hw w' hl
  obtain ⟨w₁', hp, hl₁⟩ := hl.perform hw ha
  obtain ⟨w₂', hrun, hl₂⟩ := h hs w₁' hl₁
  exact ⟨w₂', (Prog.exec_act_of_some _ hp).trans hrun, hl₂⟩

/-- One action that leaves the application as it is, then the rest of a sequence. -/
theorem step {o : Op} {f : o.Reply → Dr α} {r : o.Reply} {q : Dr α}
    (ha : w.answer env a o = some (r, w₁)) (hs : w.Acts a → w₁.Acts a)
    (h : Yields env a w₁ (f r) q w₂) :
    Yields env a w ((Prog.act o .ret : Dr o.Reply).bind f) q w₂ :=
  fun hw => act ha h (hs hw) hw

/-- A sequence whose first program returns. -/
theorem bind {p : Dr α} {f : α → Dr β} {x : α} {q : Dr β} (h : Yields env a w p (.ret x) w₁)
    (hs : w.Acts a → w₁.Acts a) (hf : Yields env a w₁ (f x) q w₂) :
    Yields env a w (p.bind f) q w₂ := by
  intro hw w' hl
  obtain ⟨w₁', hrun, hl₁⟩ := h hw w' hl
  obtain ⟨w₂', hrun', hl₂⟩ := hf (hs hw) w₁' hl₁
  refine ⟨w₂', ?_, hl₂⟩
  unfold run at hrun ⊢
  rw [Prog.exec_bind, hrun]
  exact hrun'

/-- A sequence whose first program stops. -/
theorem bind_stop {p : Dr α} {f : α → Dr β} {e : Halt} (h : Yields env a w p (.stop e) w₁) :
    Yields env a w (p.bind f) (.stop e) w₁ := by
  intro hw w' hl
  obtain ⟨w₁', hrun, hl₁⟩ := h hw w' hl
  refine ⟨w₁', ?_, hl₁⟩
  unfold run at hrun ⊢
  rw [Prog.exec_bind, hrun]

end Yields

/-- Every action is noted. -/
theorem log_run (p : Dr α) (w : World) :
    (run env a p w).2.log =
      ((p.trace (fun o w => w.perform env a o) w).map fun x => .did a x.1).reverse ++ w.log := by
  induction p generalizing w with
  | ret r => rfl
  | stop e => rfl
  | act o k ih =>
    unfold run
    rw [Prog.exec_act, Prog.trace]
    cases hp : w.perform env a o with
    | none => rfl
    | some rw' =>
      obtain ⟨r, w'⟩ := rw'
      have hlog : w'.log = .did a o :: w.log := by
        obtain ⟨-, w₁, ha, rfl⟩ := perform_eq_some hp
        rw [note_log, answer_log ha]
      have hrun := ih r w'
      unfold run at hrun
      simp only [hrun, hlog, List.map_cons, List.reverse_cons, List.append_assoc,
        List.singleton_append]

/-- Run on the thread `a` from `w`, where it is not suspended, `p` performs the actions `os`. -/
def Performs {α : Type} (env : Env) (a : Actor) (w : World) (p : Dr α) (os : List Op) : Prop :=
  w.Acts a → ∀ w', w.Logs w' → (p.trace (fun o w => w.perform env a o) w').map Sigma.fst = os

namespace Performs

theorem ret (x : α) : Performs env a w (.ret x) [] :=
  fun _ _ _ => rfl

/-- One action, then the rest of a sequence. -/
theorem step {o : Op} {f : o.Reply → Dr α} {r : o.Reply} {os : List Op}
    (ha : w.answer env a o = some (r, w₁)) (hs : w.Acts a → w₁.Acts a)
    (h : Performs env a w₁ (f r) os) :
    Performs env a w ((Prog.act o .ret : Dr o.Reply).bind f) (o :: os) := by
  intro hw w' hl
  obtain ⟨w₁', hp, hl₁⟩ := hl.perform hw ha
  rw [Prog.act_bind, Prog.trace, hp]
  exact congrArg (o :: ·) (h (hs hw) w₁' hl₁)

/-- A sequence whose first program returns. -/
theorem bind {p : Dr α} {f : α → Dr β} {x : α} {os os' : List Op} (h : Performs env a w p os)
    (hy : Yields env a w p (.ret x) w₁) (hs : w.Acts a → w₁.Acts a)
    (hf : Performs env a w₁ (f x) os') : Performs env a w (p.bind f) (os ++ os') := by
  intro hw w' hl
  obtain ⟨w₁', hrun, hl₁⟩ := hy hw w' hl
  rw [Prog.trace_bind hrun, List.map_append, h hw w' hl, hf (hs hw) w₁' hl₁]

end Performs

/-! ## The helpers -/

theorem yields_assertHelper (msg : CxxString) (u : Bool) :
    Yields env a w (assertHelper true msg u) (.ret ()) w :=
  .ret ()

/-- The world after an error. -/
def raised (w : World) (unlockMutexOnError : Bool) : World :=
  if unlockMutexOnError then { w with mutex := none } else w

variable (env a) in
theorem yields_raise (msg : CxxString) (u : Bool) :
    Yields env a w (assertHelper false msg u) (throwException msg) (w.raised u) := by
  cases u with
  | true => exact .step rfl id (.stop _)
  | false => exact .stop _

theorem yields_totalFlush (b : Build) : Yields env a w (totalFlush b) (.ret ()) w := by
  cases b with
  | debug => exact .step rfl id (.ret ())
  | ndebug => exact .ret ()

variable (env a) in
theorem yields_resolveOffset (m : Module) (r : RelAddr) (u : Bool) :
    match m.resolve r with
    | .ok addr => Yields env a w (resolveOffset m r u) (.ret addr) w
    | .error msg => Yields env a w (resolveOffset m r u) (throwException msg) (w.raised u) := by
  unfold Module.resolve resolveOffset
  by_cases ho : r.offset.isset.offset = true
  · simp only [ho, if_true]
    exact .ret _
  · by_cases hs : r.offset.isset.symbol = true
    · simp only [ho, hs, if_true]
      by_cases hsym : m.drGetProcAddress r.offset.symbol.cStr ≠ 0
      · simp only [hsym, ne_eq, not_false_eq_true, if_true, decide_true]
        exact .bind (yields_assertHelper _ u) id (.ret _)
      · simp only [hsym, if_false, decide_false]
        exact .bind_stop (yields_raise env a _ u)
    · simp only [ho, hs]
      exact .bind_stop (yields_raise env a _ u)

variable (env a) in
/-- `AbsOrRelAddr_to_AbsAddr` looks the address up in the loaded modules. -/
theorem yields_absOrRelAddrToAbsAddr (addr : AbsOrRelAddr) (u : Bool) :
    match locate w.modules addr with
    | .ok x => Yields env a w (absOrRelAddrToAbsAddr addr u) (.ret x) w
    | .error msg =>
      Yields env a w (absOrRelAddrToAbsAddr addr u) (throwException msg) (w.raised u) := by
  unfold locate absOrRelAddrToAbsAddr
  by_cases habs : addr.isset.absaddr = true
  · simp only [habs, if_true]
    exact .ret _
  · by_cases hrel : addr.isset.reladdr = true
    · simp only [habs, hrel, if_true, Bool.false_eq_true, if_false]
      have hlook : ∀ {q : Dr (Option AppPc)} {w₁ : World} {k : Option Module → Dr (Option AppPc)},
          Yields env a w (k (moduleNamed w.modules addr.reladdr.modulename)) q w₁ →
          Yields env a w ((drLookupModuleByName addr.reladdr.modulename.cStr).bind k) q w₁ :=
        fun h => .step rfl id h
      cases hm : moduleNamed w.modules addr.reladdr.modulename with
      | none =>
        refine hlook ?_
        rw [hm]
        exact .ret _
      | some m =>
        have hres := yields_resolveOffset env a (w := w) m addr.reladdr u
        cases hr : m.resolve addr.reladdr with
        | ok r =>
          rw [hr] at hres
          simp only [hr, Except.map]
          refine hlook ?_
          rw [hm]
          exact .bind hres id (.ret _)
        | error msg =>
          rw [hr] at hres
          simp only [hr, Except.map]
          refine hlook ?_
          rw [hm]
          exact .bind_stop hres
    · simp only [habs, hrel]
      exact .bind_stop (yields_raise env a _ u)

/-! ## The operations on the tables -/

/-- The world with other tables and the mutex free. -/
def stores (w : World) (t : Tables) : World :=
  { w with globals := w.globals.withTables t, mutex := none }

theorem free_eq (hm : w.mutex = none) : { w with mutex := none } = w := by
  obtain ⟨g, m, e, s, ms, l⟩ := w
  subst hm
  rfl

theorem answer_lock (hm : w.mutex = none) :
    w.answer env a .drMutexLock = some ((), { w with mutex := some a }) := by
  simp [World.answer, hm]

/-- A check that passes. -/
theorem yields_check {c : Bool} {msg : CxxString} {u : Bool} {f : Unit → Dr α} {q : Dr α}
    (hc : c = true) (h : Yields env a w (f ()) q w₁) :
    Yields env a w ((assertHelper c msg u).bind f) q w₁ := by
  subst hc
  exact .bind (.ret ()) id h

/-- A check that fails with the mutex, which was free before. -/
theorem yields_check_fails {c : Bool} {msg : CxxString} {f : Unit → Dr α} (hc : c = false)
    (hm : w.mutex = none) :
    Yields env a { w with mutex := some a } ((assertHelper c msg true).bind f)
      (throwException msg) w := by
  subst hc
  have h := yields_raise env a (w := { w with mutex := some a }) msg true
  rw [show raised { w with mutex := some a } true = w from free_eq hm] at h
  exact .bind_stop h

theorem reladdr_of_locate {modules : List Module} {addr : AbsOrRelAddr}
    (h : locate modules addr = .ok none) : addr.isset.reladdr = true := by
  unfold locate at h
  split_ifs at h with habs hrel
  · cases h
  · exact hrel

variable (env a) in
/-- `addBreakpoint` adds to the tables. -/
theorem yields_addBreakpoint (hm : w.mutex = none) (bp : WireBreakpoint) :
    match Tables.add w.modules bp w.globals.tables with
    | .ok t => Yields env a w (addBreakpoint bp) (.ret ()) (w.stores t)
    | .error msg => Yields env a w (addBreakpoint bp) (throwException msg) w := by
  have hlook := yields_absOrRelAddrToAbsAddr env a (w := w) bp.1.addr false
  unfold Tables.add Tables.place
  cases hl : locate w.modules bp.1.addr with
  | error msg =>
    rw [hl] at hlook
    exact .bind_stop hlook
  | ok x =>
    rw [hl] at hlook
    cases x with
    | some addr =>
      simp only [Except.map]
      by_cases hfree : w.globals.tables.active.find? addr = none ∨
          w.globals.tables.active.find? addr = some 0
      · have hc : decide (w.globals.breakpoints.count addr = 0 ∨
            w.globals.breakpoints.find? addr = some 0) = true := by
          simpa [StdMap.count_eq_zero] using hfree
        simp only [if_pos hfree]
        refine .bind hlook id (.step (answer_lock hm) id (.step rfl id ?_))
        exact yields_check hc (.step rfl id (.step rfl id (.ret ())))
      · have hc : decide (w.globals.breakpoints.count addr = 0 ∨
            w.globals.breakpoints.find? addr = some 0) = false := by
          simpa [StdMap.count_eq_zero] using hfree
        simp only [if_neg hfree]
        refine .bind hlook id (.step (answer_lock hm) id (.step rfl id ?_))
        exact yields_check_fails hc hm
    | none =>
      simp only [Except.map]
      have hrel := reladdr_of_locate hl
      by_cases hfree : w.globals.tables.deferred.find? bp.reladdr = none
      · have hc : decide (w.globals.deferredBreakpoints.count bp.reladdr = 0) = true := by
          simpa [StdMap.count_eq_zero] using hfree
        simp only [if_pos hfree]
        refine .bind hlook id (.step (answer_lock hm) id (yields_check hrel (.step rfl id ?_)))
        exact yields_check hc (.step rfl id (.step rfl id (.ret ())))
      · have hc : decide (w.globals.deferredBreakpoints.count bp.reladdr = 0) = false := by
          simpa [StdMap.count_eq_zero] using hfree
        simp only [if_neg hfree]
        refine .bind hlook id (.step (answer_lock hm) id (yields_check hrel (.step rfl id ?_)))
        exact yields_check_fails hc hm

variable (env a) in
/-- `delBreakpoint` deletes from the tables. -/
theorem yields_delBreakpoint (b : Build) (hm : w.mutex = none) (bp : WireBreakpoint) :
    match Tables.delete w.modules bp w.globals.tables with
    | .ok t => Yields env a w (delBreakpoint b bp) (.ret ()) (w.stores t)
    | .error msg => Yields env a w (delBreakpoint b bp) (throwException msg) w := by
  have hlook := yields_absOrRelAddrToAbsAddr env a (w := w) bp.1.addr false
  unfold Tables.delete Tables.place
  cases hl : locate w.modules bp.1.addr with
  | error msg =>
    rw [hl] at hlook
    exact .bind_stop hlook
  | ok x =>
    rw [hl] at hlook
    cases x with
    | some addr =>
      simp only [Except.map]
      by_cases hnone : w.globals.tables.active.find? addr = none
      · have hc : decide (w.globals.breakpoints.count addr ≠ 0) = false := by
          simpa [StdMap.count_eq_zero] using hnone
        simp only [if_pos hnone]
        refine .bind hlook id (.step (answer_lock hm) id (.step rfl id ?_))
        exact yields_check_fails hc hm
      · have hc : decide (w.globals.breakpoints.count addr ≠ 0) = true := by
          simpa [StdMap.count_eq_zero] using hnone
        simp only [if_neg hnone]
        refine .bind hlook id (.step (answer_lock hm) id (.step rfl id ?_))
        refine yields_check hc (.step rfl id (.bind (yields_totalFlush b) id ?_))
        exact .step rfl id (.ret ())
    | none =>
      simp only [Except.map]
      have hrel := reladdr_of_locate hl
      by_cases hnone : w.globals.tables.deferred.find? bp.reladdr = none
      · have hc : decide (w.globals.deferredBreakpoints.count bp.reladdr ≠ 0) = false := by
          simpa [StdMap.count_eq_zero] using hnone
        simp only [if_pos hnone]
        refine .bind hlook id (.step (answer_lock hm) id (yields_check hrel (.step rfl id ?_)))
        exact yields_check_fails hc hm
      · have hc : decide (w.globals.deferredBreakpoints.count bp.reladdr ≠ 0) = true := by
          simpa [StdMap.count_eq_zero] using hnone
        simp only [if_neg hnone]
        refine .bind hlook id (.step (answer_lock hm) id (yields_check hrel (.step rfl id ?_)))
        exact yields_check hc (.step rfl id (.step rfl id (.ret ())))

/-- The elements of `getBreakpoints`. -/
def listed (active : StdMap AppPc SizeT) : List Breakpoint :=
  active.entries.foldl (fun s p => setInsert (fun x y => x.lt y = true) (listedBreakpoint p) s) []

theorem yields_getBreakpoints (hm : w.mutex = none) :
    Yields env a w getBreakpoints (.ret (listed w.globals.breakpoints)) w := by
  have h : Yields env a w getBreakpoints (.ret (listed w.globals.breakpoints))
      { w with mutex := none } := .step (answer_lock hm) id (.step rfl id (.step rfl id (.ret _)))
  rwa [free_eq hm] at h

/-! ### The load of a module -/

/-- The keys that the first loop of `event_module_loaded` collects. -/
def collect (m : Module) : List (DeferredKey × SizeT) → List DeferredKey → List DeferredKey
  | [], toDelete => toDelete
  | p :: l, toDelete =>
    if p.1.1.modulename = m.preferredName then collect m l (setInsert (· < ·) p.1 toDelete)
    else collect m l toDelete

/-- Only keys of the module are collected. -/
theorem exists_of_mem_collect {m : Module} {l : List (DeferredKey × SizeT)} {s : List DeferredKey}
    {k : DeferredKey} (h : k ∈ collect m l s) :
    k ∈ s ∨ ∃ p ∈ l, p.1 = k ∧ p.1.1.modulename = m.preferredName := by
  induction l generalizing s with
  | nil => exact Or.inl h
  | cons p l ih =>
    rw [collect] at h
    split_ifs at h with hp
    · rcases ih h with hk | ⟨q, hq, hk⟩
      · rcases mem_setInsert hk with rfl | hk
        · exact Or.inr ⟨p, List.mem_cons_self, rfl, hp⟩
        · exact Or.inl hk
      · exact Or.inr ⟨q, List.mem_cons_of_mem p hq, hk⟩
    · exact (ih h).imp_right fun ⟨q, hq, hk⟩ => ⟨q, List.mem_cons_of_mem p hq, hk⟩

theorem mem_collect_of_mem {m : Module} {l : List (DeferredKey × SizeT)} {s : List DeferredKey}
    {k : DeferredKey} (h : k ∈ s) : k ∈ collect m l s := by
  induction l generalizing s with
  | nil => exact h
  | cons p l ih =>
    rw [collect]
    split_ifs
    · exact ih (mem_setInsert_of_mem h)
    · exact ih h

/-- Every key of the module is collected, up to equivalence. -/
theorem exists_mem_collect {m : Module} {l : List (DeferredKey × SizeT)} {s : List DeferredKey}
    {p : DeferredKey × SizeT} (hp : p ∈ l) (hname : p.1.1.modulename = m.preferredName) :
    ∃ k ∈ collect m l s, SameKey k p.1 := by
  induction l generalizing s with
  | nil => cases hp
  | cons q l ih =>
    rw [collect]
    rcases List.mem_cons.mp hp with rfl | hp
    · rw [if_pos hname]
      obtain ⟨k, hk, hsame⟩ := @exists_mem_setInsert _ (· < ·) _ irrefl p.1 s
      exact ⟨k, mem_collect_of_mem hk, hsame.2, hsame.1⟩
    · split_ifs
      · exact ih hp
      · exact ih hp

/-- The collected keys are a set. -/
theorem pairwise_collect {m : Module} {l : List (DeferredKey × SizeT)} {s : List DeferredKey}
    (h : s.Pairwise (· < ·)) : (collect m l s).Pairwise (· < ·) := by
  induction l generalizing s with
  | nil => exact h
  | cons p l ih =>
    rw [collect]
    split_ifs
    · exact ih (pairwise_setInsert h)
    · exact ih h

/-- The second loop erases the entries of the module. -/
theorem foldl_erase_collect (m : Module) (d : StdMap DeferredKey SizeT) :
    (collect m d.entries []).foldl StdMap.erase d =
      d.filter fun ra => ra.1.modulename ≠ m.preferredName := by
  ext1
  rw [StdMap.entries_foldl_erase]
  refine List.filter_congr fun p hp => ?_
  rw [decide_eq_decide]
  constructor
  · intro h hname
    obtain ⟨k, hk, hsame⟩ := exists_mem_collect hp hname (s := [])
    exact h k hk hsame
  · intro hname k hk hsame
    obtain ⟨q, -, rfl, hq⟩ := (exists_of_mem_collect hk).resolve_left List.not_mem_nil
    exact hname ((DeferredKey.modulename_eq_of_sameKey hsame).symm.trans hq)

/-- The world with other active breakpoints. -/
def activates (w : World) (active : StdMap AppPc SizeT) : World :=
  { w with globals := { w.globals with breakpoints := active } }

theorem yields_drAssert {c : Bool} {f : Unit → Dr α} {q : Dr α} (hc : c = true)
    (h : Yields env a w (f ()) q w₁) : Yields env a w ((drAssert c).bind f) q w₁ := by
  subst hc
  exact .bind (.ret ()) id h

theorem yields_drAssert_fails {c : Bool} {f : Unit → Dr α} (hc : c = false) :
    Yields env a w ((drAssert c).bind f) (fault .assertFailed) w := by
  subst hc
  exact .bind_stop (.stop _)

variable (env a) in
/-- The first loop of `event_module_loaded` activates the entries of the module. -/
theorem yields_activateDeferred {m : Module} {ms : List Module} (hms : w.modules = m :: ms)
    (l : List (DeferredKey × SizeT)) (toDelete : List DeferredKey) :
    match Tables.activate m l w.globals.breakpoints with
    | some active => Yields env a w (activateDeferred m l toDelete)
        (.ret (collect m l toDelete)) (w.activates active)
    | none => ∃ e w₁, Yields env a w (activateDeferred m l toDelete) (.stop e) w₁ := by
  induction l generalizing w toDelete with
  | nil => exact .ret _
  | cons p l ih =>
    rw [Tables.activate, activateDeferred, collect]
    by_cases hp : p.1.1.modulename = m.preferredName
    · simp only [if_pos hp]
      have hlook := yields_absOrRelAddrToAbsAddr env a (w := w)
        (({} : AbsOrRelAddr).setReladdr p.1.1) true
      rw [hms, locate_cons hp] at hlook
      cases hr : m.resolve p.1.1 with
      | error msg =>
        rw [hr] at hlook
        exact ⟨_, _, .bind_stop hlook⟩
      | ok addr =>
        rw [hr] at hlook
        by_cases hspan : m.Spans addr
        · have hrest := ih (w := w.activates (w.globals.breakpoints.assign addr p.2)) hms
            (setInsert (· < ·) p.1 toDelete)
          simp only [if_pos hspan]
          cases hact : Tables.activate m l (w.globals.breakpoints.assign addr p.2) with
          | some active =>
            simp only [activates, hact] at hrest
            refine .bind hlook id (yields_drAssert rfl (.bind (.ret addr) id ?_))
            exact yields_drAssert (decide_eq_true hspan) (.step rfl id hrest)
          | none =>
            simp only [activates, hact] at hrest
            obtain ⟨e, w₁, hrest⟩ := hrest
            refine ⟨e, w₁, .bind hlook id (yields_drAssert rfl (.bind (.ret addr) id ?_))⟩
            exact yields_drAssert (decide_eq_true hspan) (.step rfl id hrest)
        · simp only [if_neg hspan]
          refine ⟨.fault .assertFailed, w, .bind hlook id (yields_drAssert rfl ?_)⟩
          exact .bind (.ret addr) id (yields_drAssert_fails (decide_eq_false hspan))
    · simp only [if_neg hp]
      exact ih hms toDelete

/-- The second loop of `event_module_loaded`. -/
theorem yields_eraseDeferred (ks : List DeferredKey) :
    Yields env a w (eraseDeferred ks) (.ret ())
      { w with globals := { w.globals with
        deferredBreakpoints := ks.foldl StdMap.erase w.globals.deferredBreakpoints } } := by
  induction ks generalizing w with
  | nil => exact .ret ()
  | cons k ks ih => exact .step rfl id ih

variable (env a) in
/-- `event_module_loaded` loads the module into the tables. -/
theorem yields_eventModuleLoaded (b : Build) {m : Module} {ms : List Module}
    (hms : w.modules = m :: ms) (hm : w.mutex = none) :
    match Tables.load m w.globals.tables with
    | some t => Yields env a w (eventModuleLoaded b m) (.ret ()) (w.stores t)
    | none => ∃ e w₁, Yields env a w (eventModuleLoaded b m) (.stop e) w₁ := by
  have hloop := yields_activateDeferred env a (w := { w with mutex := some a })
    hms w.globals.deferredBreakpoints.entries []
  unfold Tables.load
  simp only [Globals.tables_active, Globals.tables_deferred]
  cases hact : Tables.activate m w.globals.deferredBreakpoints.entries w.globals.breakpoints with
  | none =>
    simp only [hact] at hloop
    obtain ⟨e, w₁, hloop⟩ := hloop
    exact ⟨e, w₁, .step (answer_lock hm) id (.step rfl id (.bind_stop hloop))⟩
  | some active =>
    simp only [hact] at hloop
    simp only [Option.map_some]
    rw [← foldl_erase_collect]
    refine .step (answer_lock hm) id (.step rfl id (.bind hloop id ?_))
    exact .bind (yields_eraseDeferred _) id (.step rfl id (.ret ()))

/-! ### Clean calls -/

/-- The world after `suspend_helper`. -/
def signals (w : World) (env : Env) (e : EventType) (start endPc : AppPc) : World :=
  { w with
    globals := { w.globals with
      stoppedContext := some (e, { env.mcontext with flags := drMcAll })
      stoppedBlock := some (start, endPc) }
    event := true }

variable (env a) in
theorem yields_suspendHelper (e : EventType) (start endPc : AppPc) :
    Yields env a w (suspendHelper (some e) start endPc) (.ret ()) (w.signals env e start endPc) :=
  .step rfl id (.step rfl id (.step rfl id (.step rfl id (.step rfl id (.step rfl id (.ret ()))))))

/-- The world after `suspend_helper`, if the event is one of the stop events. -/
def raises (w : World) (env : Env) (e : EventType) (start endPc : AppPc) (S : EventTypes) : World :=
  if e ∈ S then w.signals env e start endPc else w

section Raises

variable (w : World) (env : Env) (e : EventType) (start endPc : AppPc) (S : EventTypes)

@[simp] theorem raises_mutex : (w.raises env e start endPc S).mutex = w.mutex := by
  unfold raises
  split_ifs <;> rfl

@[simp] theorem raises_suspended : (w.raises env e start endPc S).suspended = w.suspended := by
  unfold raises
  split_ifs <;> rfl

@[simp] theorem raises_modules : (w.raises env e start endPc S).modules = w.modules := by
  unfold raises
  split_ifs <;> rfl

@[simp] theorem raises_tables :
    (w.raises env e start endPc S).globals.tables = w.globals.tables := by
  unfold raises
  split_ifs <;> rfl

@[simp] theorem raises_suspendParams :
    (w.raises env e start endPc S).globals.suspendParams = w.globals.suspendParams := by
  unfold raises
  split_ifs <;> rfl

@[simp] theorem raises_stopEvents :
    (w.raises env e start endPc S).globals.stopEvents = w.globals.stopEvents := by
  unfold raises
  split_ifs <;> rfl

theorem raises_event :
    (w.raises env e start endPc S).event = (w.event || decide (e ∈ S)) := by
  unfold raises
  split_ifs with he
  · simp [signals, he]
  · simp [he]

end Raises

theorem yields_stopEventsCount {e : EventType} {S : EventTypes}
    (hS : w.globals.stopEvents = some S) :
    Yields env a w (stopEventsCount e) (.ret (decide (e ∈ S))) w := by
  refine .step rfl id ?_
  rw [hS]
  exact .ret _

theorem yields_stopEventsCount_none {e : EventType} (hS : w.globals.stopEvents = none) :
    Yields env a w (stopEventsCount e) (fault .emptyOptional) w := by
  refine .step rfl id ?_
  rw [hS]
  exact .stop _

variable (env a) in
theorem yields_relevantBlockCleanCall {S : EventTypes} (hS : w.globals.stopEvents = some S)
    (start endPc : AppPc) :
    Yields env a w (relevantBlockCleanCall start endPc) (.ret ())
      (w.raises env .relevantBlock start endPc S) := by
  refine .bind (yields_stopEventsCount hS) id ?_
  unfold raises
  by_cases he : EventType.relevantBlock ∈ S
  · simp only [he, decide_true, if_true]
    exact yields_suspendHelper env a _ _ _
  · simp only [he, decide_false, if_false]
    exact .ret ()

/-- A hit of an address that is not active only asks for a flush. -/
theorem yields_updateFastforwardCount_stale (b : Build) {addr : AppPc} (hm : w.mutex = none)
    (h : w.globals.breakpoints.find? addr = none) (start endPc : AppPc) :
    Yields env a w (updateFastforwardCount b addr start endPc) (.ret ()) w := by
  have hrun : Yields env a w (updateFastforwardCount b addr start endPc) (.ret ())
      { w with mutex := none } := by
    refine .step (answer_lock hm) id (.step rfl id ?_)
    simp only [h]
    exact .step rfl id (yields_totalFlush b)
  rwa [free_eq hm] at hrun

/-- A hit of an active address counts down. -/
theorem yields_updateFastforwardCount_count (b : Build) {addr : AppPc} {n : SizeT}
    (hm : w.mutex = none) (h : w.globals.breakpoints.find? addr = some n) (hn : n - 1 ≠ 0)
    (start endPc : AppPc) :
    Yields env a w (updateFastforwardCount b addr start endPc) (.ret ())
      (w.stores (w.globals.tables.hit addr)) := by
  refine .step (answer_lock hm) id (.step rfl id ?_)
  have hhit : w.globals.tables.hit addr =
      { w.globals.tables with active := w.globals.breakpoints.assign addr (n - 1) } := by
    simp only [Tables.hit, Globals.tables_active, h, if_neg hn]
  rw [hhit]
  simp only [h]
  refine .step rfl id ?_
  simp only [if_neg hn]
  exact .step rfl id (.ret ())

/-- The hit that takes the count to zero erases the address, and raises the event. -/
theorem yields_updateFastforwardCount_fire (b : Build) {addr : AppPc} {n : SizeT} {S : EventTypes}
    (hm : w.mutex = none) (h : w.globals.breakpoints.find? addr = some n) (hn : n - 1 = 0)
    (hS : w.globals.stopEvents = some S) (start endPc : AppPc) :
    Yields env a w (updateFastforwardCount b addr start endPc) (.ret ())
      ((w.stores (w.globals.tables.hit addr)).raises env .breakpoint start endPc S) := by
  refine .step (answer_lock hm) id (.step rfl id ?_)
  have hhit : w.globals.tables.hit addr =
      { w.globals.tables with
        active := (w.globals.breakpoints.assign addr (n - 1)).erase addr } := by
    simp only [Tables.hit, Globals.tables_active, h, if_pos hn]
  rw [hhit]
  simp only [h]
  refine .step rfl id ?_
  simp only [if_pos hn]
  refine .step rfl id (.bind (yields_stopEventsCount (S := S) hS) id ?_)
  unfold raises
  by_cases he : EventType.breakpoint ∈ S
  · simp only [he, decide_true, if_true]
    exact .bind (yields_suspendHelper env a _ _ _) id (.step rfl id (.ret ()))
  · simp only [he, decide_false, if_false]
    exact .step rfl id (.ret ())

/-! ### Blocks -/

/-- The elements of an instrumented block. -/
def instrumented (active : StdMap AppPc SizeT) (S : EventTypes) (bb : List Instr)
    (firstpc lastpc : AppPc) : List Item :=
  let items :=
    if active.entries.any fun p => firstpc ≤ p.1 ∧ p.1 ≤ lastpc then
      insertBreakpointCalls active firstpc lastpc bb
    else bb.map .app
  if EventType.relevantBlock ∈ S then .cleanCall (.relevantBlockCleanCall firstpc lastpc) :: items
  else items

variable (env a) in
theorem yields_eventBasicBlock {bb : List Instr} {first last : Instr} {S : EventTypes}
    (hm : w.mutex = none) (hfirst : bb.head? = some first) (hlast : bb.getLast? = some last)
    (hS : w.globals.stopEvents = some S) :
    Yields env a w (eventBasicBlock bb)
      (.ret (instrumented w.globals.breakpoints S bb first.pc
        (last.pc + BitVec.ofNat 64 last.length))) w := by
  have hrun : Yields env a w (eventBasicBlock bb)
      (.ret (instrumented w.globals.breakpoints S bb first.pc
        (last.pc + BitVec.ofNat 64 last.length))) { w with mutex := none } := by
    unfold eventBasicBlock
    rw [hfirst, hlast]
    refine .step (answer_lock hm) id (.step rfl id ?_)
    refine .bind (yields_stopEventsCount (S := S) hS) id (.step rfl id ?_)
    unfold instrumented
    by_cases he : EventType.relevantBlock ∈ S
    · simp only [he, decide_true, if_true]
      exact .ret _
    · simp only [he, decide_false, if_false]
      exact .ret _
  rwa [free_eq hm] at hrun

/-- The code block of the stopped block. -/
def codeBlock (w : World) (block : AppPc × AppPc) (bytes : CxxString) : CodeBlock where
  addr := block.1
  bytes := bytes
  moduleinfo := (moduleAt w.modules block.1).map fun m => moduleInfo m block.1

theorem yields_getCodeBlock {block : AppPc × AppPc} {bytes : CxxString} (hm : w.mutex = none)
    (hb : w.globals.stoppedBlock = some block) (hbytes : env.bytes = some bytes) :
    Yields env a w getCodeBlock (.ret (w.codeBlock block bytes)) w := by
  have hrun : Yields env a w getCodeBlock (.ret (w.codeBlock block bytes))
      { w with mutex := none } := by
    refine .step (answer_lock hm) id (.step rfl id (yields_check (by simp [hb]) ?_))
    simp only [hb]
    refine .step (r := some bytes) (by simp [World.answer, hbytes]) id ?_
    exact .step rfl id (.step rfl id (.ret _))
  rwa [free_eq hm] at hrun

/-! ### Resuming and stopping -/

variable (w₁) in
/-- An `assert` that holds. -/
theorem yields_cassert {e : Dr Bool} {f : Unit → Dr α} {q : Dr α}
    (h : Yields env a w e (.ret true) w₁) (hs : w.Acts a → w₁.Acts a)
    (hf : Yields env a w₁ (f ()) q w₂) : Yields env a w ((cassert .debug e).bind f) q w₂ :=
  .bind (.bind h hs (.ret ())) hs hf

/-- A look at the globals. -/
theorem yields_read {f : Globals → Dr α} {q : Dr α} (h : Yields env a w (f w.globals) q w₁) :
    Yields env a w (readGlobals.bind f) q w₁ :=
  .step rfl id h

/-- The world after the application is resumed for the stop events `S`. -/
def resumes (w : World) (S : EventTypes) : World :=
  { w with
    globals := { w.globals with
      suspendParams := none
      stopEvents := some S
      stoppedContext := none
      stoppedBlock := none }
    suspended := false }

theorem yields_resumeApplicationThreads {params : SuspendParams}
    (hp : w.globals.suspendParams = some params) :
    Yields env .server w (resumeApplicationThreads .debug) (.ret ())
      { w with
        globals := { w.globals with
          suspendParams := none
          stoppedContext := none
          stoppedBlock := none }
        suspended := false } := by
  refine yields_cassert w ?_ id (.step rfl id (.step rfl id ?_))
  · refine yields_read ?_
    rw [hp]
    exact .ret true
  · refine yields_cassert { w with
      globals := { w.globals with stoppedContext := none, stoppedBlock := none }
      suspended := false } ?_ (fun _ => Or.inr rfl) (.step rfl id (.ret ()))
    refine yields_read ?_
    simp only [Write.apply, hp, deref]
    exact .bind (.ret params) id (.step rfl (fun _ => Or.inr rfl) (.ret true))

variable (env) in
theorem yields_resumeUntilEvent {S : EventTypes} {params : SuspendParams} (hm : w.mutex = none)
    (hp : w.globals.suspendParams = some params) :
    Yields env .server w (resumeUntilEvent .debug S) (.ret ()) (w.resumes S) := by
  have hrun : Yields env .server w (resumeUntilEvent .debug S) (.ret ())
      { w.resumes S with mutex := none } := by
    refine .step rfl id (.step (answer_lock hm) id (yields_read ?_))
    refine yields_check (by simp [Write.apply, hp]) (.step rfl id ?_)
    refine .bind (yields_totalFlush _) id ?_
    exact yields_resumeApplicationThreads hp
  rwa [free_eq (w := w.resumes S) hm] at hrun

variable (env) in
/-- What it does on the way. -/
theorem performs_resumeUntilEvent (S : EventTypes) {params : SuspendParams} (hm : w.mutex = none)
    (hp : w.globals.suspendParams = some params) :
    Performs env .server w (resumeUntilEvent .debug S)
      [.write (.stopEvents S), .drMutexLock, .read, .drMutexUnlock, .drDelayFlushRegion, .read,
        .write (.stoppedContext none), .write (.stoppedBlock none), .read,
        .drResumeAllOtherThreads params, .write (.suspendParams none)] := by
  refine .step rfl id (.step (answer_lock hm) id (.step rfl id ?_))
  simp only [Write.apply, hp, Option.isSome_some]
  refine .step rfl id (.step rfl id (.step rfl id ?_))
  refine .step rfl id (.step rfl id (.step rfl id ?_))
  simp only [Write.apply, deref]
  exact .step rfl (fun _ => Or.inr rfl) (.step rfl id (.ret ()))

/-- The world after the application is suspended. -/
def stops (w : World) (env : Env) : World :=
  { w with
    globals := { w.globals with suspendParams := some env.params }
    suspended := true }

theorem yields_suspendApplicationThreads (hp : w.globals.suspendParams = none) :
    Yields env .server w (suspendApplicationThreads .debug) (.ret ()) (w.stops env) := by
  refine yields_cassert w ?_ id (.step rfl id (.step rfl (fun _ => Or.inr rfl) (.ret ())))
  refine yields_read ?_
  rw [hp]
  exact .ret true

variable (env) in
/-- How `executeUntilEvent` ends once it has stopped. -/
theorem yields_stopAtEvent (he : w.event = true) (hp : w.globals.suspendParams = none)
    (hm : w.mutex = none) :
    Yields env .server w (stopAtEvent .debug)
      (match w.globals.stoppedContext with
      | some c => .ret c.1
      | none => throwException "Unable to locate stopped context.".toList)
      { w.stops env with event := false } := by
  have hwait : w.answer env .server .drEventWait = some ((), { w with event := false }) := by
    simp [World.answer, he]
  have hsuspend : Yields env .server { w with event := false } (suspendApplicationThreads .debug)
      (.ret ()) (stops { w with event := false } env) :=
    yields_suspendApplicationThreads hp
  refine .step hwait id (.bind hsuspend (fun _ => Or.inr rfl) (yields_read ?_))
  cases hc : w.globals.stoppedContext with
  | some c =>
    refine yields_check (by simp [stops, hc]) ?_
    simp only [stops, hc]
    exact .ret _
  | none =>
    have hraise := yields_raise env .server
      (w := stops { w with event := false } env) "Unable to locate stopped context.".toList true
    rw [show raised (stops { w with event := false } env) true = { w.stops env with event := false }
      from free_eq (w := { w.stops env with event := false }) hm] at hraise
    have hc' : (stops { w with event := false } env).globals.stoppedContext.isSome = false := by
      simp [stops, hc]
    rw [hc']
    exact .bind_stop hraise

end World

end ConcreteEval
