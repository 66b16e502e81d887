import ConcreteEval.Builds

/-!
# Assertions that carry behaviour

Whole runs in both builds, from targets that agree but for what is logged other than requests. A
build without `assert` never asks DR for a flush or to resume the application. So a run in which
no assertion fails goes the same way without `assert`, with the same requests and the same
globals, just if it asks for neither : if in none of its steps the application is resumed, an
active breakpoint is deleted, or an address is hit that is not active (`Target.sameRun_iff`).
-/

namespace ConcreteEval

/-! ## Requests -/

namespace World

/-- The requests made to DR, newest first. -/
def requests (w : World) : List Op :=
  w.log.filterMap fun
    | .did _ o => if o.isRequest then some o else none
    | _ => none

/-- Those that are made within `assert`. -/
def asserted (w : World) : List Op :=
  w.requests.filter Op.isAsserted

/-- The same worlds with the same requests. -/
def Agrees (w w' : World) : Prop :=
  w.Logs w' ∧ w'.requests = w.requests

variable {env : Env} {a : Actor} {w w' w₁ : World} {α β : Type} {p q : Dr α}

theorem requests_did (w : World) (a : Actor) (o : Op) :
    (w.note (.did a o)).requests = if o.isRequest then o :: w.requests else w.requests := by
  cases ho : o.isRequest <;> simp [requests, ho]

/-- The flushes are among the asserted requests. -/
theorem flushes_eq_count (w : World) : w.flushes = w.asserted.count .drDelayFlushRegion := by
  unfold flushes asserted requests
  rw [List.count, List.countP_filter, List.countP_filterMap]
  congr 1
  funext x
  cases x with
  | did a o => cases o <;> rfl
  | _ => rfl

theorem requests_run (p : Dr α) (w : World) :
    (run env a p w).2.requests =
      (((p.trace (fun o w => w.perform env a o) w).map Sigma.fst).filter Op.isRequest).reverse ++
        w.requests := by
  unfold requests
  rw [log_run, List.filterMap_append, List.filterMap_reverse, List.filterMap_map, List.filter_map,
    ← List.filterMap_eq_map, List.filterMap_filter]
  congr 2

theorem asserted_run (p : Dr α) (w : World) :
    (run env a p w).2.asserted =
      (((p.trace (fun o w => w.perform env a o) w).map Sigma.fst).filter Op.isAsserted).reverse ++
        w.asserted := by
  unfold asserted
  rw [requests_run, List.filter_append, List.filter_reverse, List.filter_filter]
  congr 3
  funext o
  cases o <;> rfl

variable (env a) in
theorem asserted_run_silent (h : Silent p) : (run env a p w).2.asserted = w.asserted := by
  have hnone : ((p.trace (fun o w => w.perform env a o) w).map Sigma.fst).filter Op.isAsserted =
      [] := by
    refine List.filter_eq_nil_iff.mpr fun o ho => ?_
    obtain ⟨e, he, rfl⟩ := List.mem_map.mp ho
    simpa using h.trace e he
  rw [asserted_run, hnone]
  rfl

namespace Agrees

theorem refl (w : World) : w.Agrees w :=
  ⟨⟨w.log, rfl⟩, rfl⟩

theorem asserted_eq (h : w.Agrees w') : w'.asserted = w.asserted :=
  congrArg (List.filter Op.isAsserted) h.2

theorem flushes_eq (h : w.Agrees w') : w'.flushes = w.flushes := by
  rw [flushes_eq_count, flushes_eq_count, h.asserted_eq]

theorem perform (h : w.Agrees w') {o : Op} {r : o.Reply} (hp : w.perform env a o = some (r, w₁)) :
    ∃ w₁', w'.perform env a o = some (r, w₁') ∧ w₁.Agrees w₁' := by
  obtain ⟨hacts, w₂, ha, rfl⟩ := perform_eq_some hp
  obtain ⟨w₁', hp', hl⟩ := h.1.perform (a := a) (hacts.symm.imp_right id) ha
  obtain ⟨-, w₂', ha', rfl⟩ := perform_eq_some hp'
  refine ⟨_, hp', ?_, ?_⟩
  · obtain ⟨l, hl⟩ := hl
    exact ⟨_, hl⟩
  · rw [requests_did, requests_did]
    unfold requests
    rw [answer_log ha, answer_log ha']
    have hreq := h.2
    unfold requests at hreq
    rw [hreq]

/-- A look that only one of the two takes. -/
theorem read (h : w.Agrees w') {g : Globals} (hp : w.perform env a .read = some (g, w₁)) :
    w₁.Agrees w' := by
  obtain ⟨-, w₂, ha, rfl⟩ := perform_eq_some hp
  obtain ⟨-, rfl⟩ := Prod.mk.inj (Option.some.inj ha)
  obtain ⟨⟨l, rfl⟩, hreq⟩ := h
  exact ⟨⟨l, rfl⟩, hreq⟩

end Agrees

/-- Without `assert` a program that makes none of the asserted requests ends in the same way. -/
theorem run_withoutAssert (h : WithoutAssert p q) (hw : w.Agrees w') {x : Prog.Ending Halt α}
    (hx : (run env a p w).1.ending? = some x) (hfault : ∀ f, x ≠ .stopped (.fault f))
    (hsilent : (run env a p w).2.asserted = w.asserted) :
    ∃ w₁', run env a q w' = ((run env a p w).1, w₁') ∧ (run env a p w).2.Agrees w₁' := by
  refine h.exec (R := Agrees) (fun o r w w' w₁ _ hR hp => hR.perform hp) ?_ hw hx ?_ ?_
  · rintro o r w w' w₁ (rfl | hasserted) hkeep hR hp
    · exact hR.read hp
    · cases hasserted.symm.trans hkeep
  · rintro e rfl ⟨f, rfl⟩
    exact hfault f rfl
  · intro e he
    rw [asserted_run, List.append_left_eq_self, List.reverse_eq_nil_iff,
      List.filter_eq_nil_iff] at hsilent
    simpa using hsilent e.1 (List.mem_map_of_mem he)

/-- Run on the thread `a` from `w`, where it is not suspended, `p` makes the asserted requests
`os`. -/
def Asks {α : Type} (env : Env) (a : Actor) (w : World) (p : Dr α) (os : List Op) : Prop :=
  w.Acts a → ∀ w', w.Logs w' →
    ((p.trace (fun o w => w.perform env a o) w').map Sigma.fst).filter Op.isAsserted = os

namespace Asks

variable {os os' : List Op}

theorem of_performs (h : Performs env a w p os) : Asks env a w p (os.filter Op.isAsserted) :=
  fun hw w' hl => by rw [h hw w' hl]

theorem of_silent (h : Silent p) : Asks env a w p [] := by
  intro _ w' _
  have hrun := asserted_run_silent env a (w := w') h
  rwa [asserted_run, List.append_left_eq_self, List.reverse_eq_nil_iff] at hrun

/-- A silent action, then the rest of a sequence. -/
theorem step {o : Op} {f : o.Reply → Dr α} {r : o.Reply}
    (ha : w.answer env a o = some (r, w₁)) (hs : w.Acts a → w₁.Acts a)
    (h : Asks env a w₁ (f r) os) (ho : o.isAsserted = false) :
    Asks env a w ((Prog.act o .ret : Dr o.Reply).bind f) os := by
  intro hw w' hl
  obtain ⟨w₁', hp, hl₁⟩ := hl.perform hw ha
  rw [Prog.act_bind, Prog.trace, hp, List.map_cons, List.filter_cons_of_neg (by simp [ho])]
  exact h (hs hw) w₁' hl₁

theorem bind {f : α → Dr β} {x : α} (h : Asks env a w p os) (hy : Yields env a w p (.ret x) w₁)
    (hs : w.Acts a → w₁.Acts a) (hf : Asks env a w₁ (f x) os') :
    Asks env a w (p.bind f) (os ++ os') := by
  intro hw w' hl
  obtain ⟨w₁', hrun, hl₁⟩ := hy hw w' hl
  rw [Prog.trace_bind hrun, List.map_append, List.filter_append, h hw w' hl, hf (hs hw) w₁' hl₁]

theorem bind_stop {f : α → Dr β} {e : Halt} (h : Asks env a w p os)
    (hy : Yields env a w p (.stop e) w₁) : Asks env a w (p.bind f) os := by
  intro hw w' hl
  obtain ⟨w₁', hrun, -⟩ := hy hw w' hl
  rw [Prog.trace_bind_stop hrun]
  exact h hw w' hl

theorem map (f : α → β) (h : Asks env a w p os) :
    Asks env a w (p.bind fun x => .ret (f x)) os := by
  intro hw w' hl
  rw [Prog.trace_map]
  exact h hw w' hl

/-- What is asked for where `p` runs. -/
theorem asserted_run (h : Asks env a w p os) (hw : w.Acts a) (hl : w.Logs w') :
    (run env a p w').2.asserted = os.reverse ++ w'.asserted := by
  rw [World.asserted_run, h hw w' hl]

end Asks

theorem asks_totalFlush : Asks env a w (totalFlush .debug) [.drDelayFlushRegion] := by
  have hacts : Performs env a w (totalFlush .debug) [.drDelayFlushRegion] := .step rfl id (.ret ())
  exact .of_performs hacts

theorem asks_unlock : Asks env a w drMutexUnlock [] :=
  .of_silent (silent_step (f := .ret) rfl fun _ => trivial)

variable (env a) in
/-- Deleting an active breakpoint asks for a flush. -/
theorem asks_delBreakpoint (hm : w.mutex = none) (bp : WireBreakpoint) :
    Asks env a w (delBreakpoint .debug bp)
      (match Tables.place w.modules bp with
      | .ok (.active addr) =>
        if w.globals.breakpoints.find? addr = none then [] else [.drDelayFlushRegion]
      | _ => []) := by
  have hlook := yields_absOrRelAddrToAbsAddr env a (w := w) bp.1.addr false
  have hasks : Asks env a w (absOrRelAddrToAbsAddr bp.1.addr false) [] :=
    .of_silent (silent_resolve _ _)
  unfold Tables.place
  cases hl : locate w.modules bp.1.addr with
  | error msg =>
    rw [hl] at hlook
    exact .bind_stop hasks hlook
  | ok x =>
    rw [hl] at hlook
    refine .bind hasks hlook id (.step (answer_lock hm) id ?_ rfl)
    cases x with
    | some addr =>
      refine .step rfl id ?_ rfl
      by_cases hnone : w.globals.breakpoints.find? addr = none
      · simp only [Except.map, if_pos hnone]
        have hc : decide (w.globals.breakpoints.count addr ≠ 0) = false := by
          simpa [StdMap.count_eq_zero] using hnone
        rw [hc]
        exact .of_silent (silent_step rfl fun _ => trivial)
      · simp only [Except.map, if_neg hnone]
        have hc : decide (w.globals.breakpoints.count addr ≠ 0) = true := by
          simpa [StdMap.count_eq_zero] using hnone
        rw [hc]
        refine .step rfl id ?_ rfl
        exact asks_totalFlush.bind (yields_totalFlush .debug) id asks_unlock
    | none =>
      refine .of_silent (silent_check fun _ => silent_step rfl fun _ => silent_check fun _ => ?_)
      exact silent_step rfl fun _ => silent_step (f := .ret) rfl fun _ => trivial

variable (env a) in
/-- A hit of an address that is not active asks for a flush. -/
theorem asks_updateFastforwardCount {S : EventTypes} (hm : w.mutex = none)
    (hS : w.globals.stopEvents = some S) (addr start endPc : AppPc) :
    Asks env a w (updateFastforwardCount .debug addr start endPc)
      (if w.globals.breakpoints.find? addr = none then [.drDelayFlushRegion] else []) := by
  have hfilter : ∀ (n? : Option SizeT) (mcontext : Mcontext),
      (hitActs n? S addr start endPc mcontext).filter Op.isAsserted =
        if n? = none then [.drDelayFlushRegion] else [] := by
    intro n? mcontext
    unfold hitActs
    cases n? with
    | none => rfl
    | some n =>
      rw [if_neg (Option.some_ne_none n)]
      simp only
      split_ifs <;> rfl
  rw [← hfilter]
  exact .of_performs (performs_updateFastforwardCount env a hm hS addr start endPc)

end World

/-! ## Steps in both builds -/

/-- An operation that ends does so without a fault. -/
theorem ending?_of_endingOf {a : Actor} {p : Dr Result} {x : Prog.Ending Halt Result}
    (h : endingOf a p = some x) : p.ending? = some x ∧ ∀ f, x ≠ .stopped (.fault f) := by
  cases p with
  | ret r =>
    obtain rfl := Option.some.inj h
    exact ⟨rfl, nofun⟩
  | stop e =>
    cases e with
    | thrown e =>
      change (if a = .server then some (.stopped (.thrown e)) else none) = some x at h
      split_ifs at h
      obtain rfl := Option.some.inj h
      exact ⟨rfl, nofun⟩
    | fault f => cases h
  | act o k => cases h

namespace World

variable {b : Build} {env : Env} {a : Actor} {op : Operation} {w w' w₁ : World}
  {x : Prog.Ending Halt Result}

/-- What a whole operation asks for is what its program asks for. -/
theorem asserted_alone {os : List Op} (hal : w.alone .debug env a op = some (x, w₁))
    (h : Asks env a (w.enter op) (op.prog .debug) os) (hw : w.Acts a) :
    w₁.asserted = os.reverse ++ w.asserted := by
  obtain ⟨x', -, heq⟩ := Option.map_eq_some_iff.mp hal
  obtain ⟨-, rfl⟩ := Prod.mk.inj heq
  have hlogs : (w.enter op).Logs ((w.enter op).note (.started a op)) := ⟨_, rfl⟩
  refine (h.asserted_run (by simpa [Acts] using hw) hlogs).trans ?_
  congr 1
  unfold asserted requests
  rw [note_log, enter_log]
  rfl

/-- Without `assert` no operation makes an asserted request. -/
theorem asserted_alone_ndebug (hal : w.alone .ndebug env a op = some (x, w₁)) :
    w₁.asserted = w.asserted := by
  obtain ⟨x', -, heq⟩ := Option.map_eq_some_iff.mp hal
  obtain ⟨-, rfl⟩ := Prod.mk.inj heq
  refine (asserted_run_silent _ _ (withoutAssert_prog op).within).trans ?_
  unfold asserted requests
  rw [note_log, enter_log]
  rfl

theorem Agrees.started (h : w.Agrees w') (a : Actor) (op : Operation) :
    ((w.enter op).note (.started a op)).Agrees ((w'.enter op).note (.started a op)) := by
  obtain ⟨⟨l, rfl⟩, hreq⟩ := h
  cases op <;> exact ⟨⟨_, rfl⟩, hreq⟩

theorem Agrees.ended (h : w.Agrees w') (a : Actor) (op : Operation)
    (x : Prog.Ending Halt Result) : (w.note (.ended a op x)).Agrees (w'.note (.ended a op x)) := by
  obtain ⟨⟨l, rfl⟩, hreq⟩ := h
  exact ⟨⟨_, rfl⟩, hreq⟩

/-- An operation that makes no asserted request does the same without `assert`. -/
theorem alone_withoutAssert (h : w.Agrees w') (hal : w.alone .debug env a op = some (x, w₁))
    (hsilent : w₁.asserted = w.asserted) :
    ∃ w₁', w'.alone .ndebug env a op = some (x, w₁') ∧ w₁.Agrees w₁' := by
  obtain ⟨x', hx, heq⟩ := Option.map_eq_some_iff.mp hal
  obtain ⟨rfl, rfl⟩ := Prod.mk.inj heq
  obtain ⟨hend, hfault⟩ := ending?_of_endingOf hx
  have hstart : ((w.enter op).note (.started a op)).asserted = w.asserted := by
    unfold asserted requests
    rw [note_log, enter_log]
    rfl
  obtain ⟨w₁', hrun, hw₁⟩ := run_withoutAssert (withoutAssert_prog op) (h.started a op) hend hfault
    (hsilent.trans hstart.symm)
  refine ⟨w₁'.note (.ended a op x'), ?_, hw₁.ended a op x'⟩
  unfold alone
  simp only [hrun, hx, Option.map_some]

end World

namespace Target

variable {t t' t₁ t₁' : Target} {l : Activity}

/-- The same targets, with the same requests made. -/
structure Agrees (t t' : Target) : Prop where
  world : t.world.Agrees t'.world
  waiting : t'.waiting = t.waiting
  cache : t'.cache = t.cache

theorem agrees_boot (modules : List Module) :
    (boot .debug modules).Agrees (boot .ndebug modules) :=
  ⟨⟨⟨_, rfl⟩, rfl⟩, rfl, rfl⟩

/-- A step that resumes nothing, deletes no active breakpoint and hits no address that is not
active. -/
structure Quiet (t : Target) (l : Activity) : Prop where
  resume : ∀ S, l ≠ .resume S
  delete : ∀ bp env addr, l = .call (.delBreakpoint bp) env →
    Tables.place t.world.modules bp = .ok (.active addr) →
    t.world.globals.breakpoints.find? addr = none
  hit : ∀ u addr start endPc env,
    l = .callback u (.cleanCall (.updateFastforwardCount addr start endPc)) env →
    t.world.globals.breakpoints.find? addr ≠ none

theorem quiet_delete {bp : WireBreakpoint} {env : Env}
    (h : ∀ addr, Tables.place t.world.modules bp = .ok (.active addr) →
      t.world.globals.breakpoints.find? addr = none) :
    t.Quiet (.call (.delBreakpoint bp) env) := by
  refine ⟨nofun, ?_, nofun⟩
  rintro bp' env' addr hl
  obtain ⟨hop, -⟩ := Activity.call.inj hl
  obtain rfl := Operation.delBreakpoint.inj hop
  exact h addr

theorem quiet_hit {u : ℕ} {addr start endPc : AppPc} {env : Env}
    (h : t.world.globals.breakpoints.find? addr ≠ none) :
    t.Quiet (.callback u (.cleanCall (.updateFastforwardCount addr start endPc)) env) := by
  refine ⟨nofun, nofun, ?_⟩
  rintro u' addr' start' endPc' env' hl
  obtain ⟨-, hop, -⟩ := Activity.callback.inj hl
  obtain ⟨rfl, -, -⟩ := CleanCall.updateFastforwardCount.inj (Operation.cleanCall.inj hop)
  exact h

/-- A step that makes no asserted request can be taken without `assert`. -/
theorem step_withoutAssert (h : t.Agrees t') (hs : t.step .debug l = some t₁)
    (hsilent : t₁.world.asserted = t.world.asserted) :
    ∃ t₁', t'.step .ndebug l = some t₁' ∧ t₁.Agrees t₁' := by
  cases l with
  | call op env =>
    obtain ⟨hwait, hq, x, w, hal, rfl⟩ := step_call hs
    obtain ⟨w', hal', hw⟩ := World.alone_withoutAssert h.world hal hsilent
    refine ⟨{ t' with world := w' }, ?_, hw, h.waiting, h.cache⟩
    simp only [step, h.waiting, hwait, hq, hal', and_self, if_true, Option.map_some]
  | resume S =>
    obtain ⟨hwait, w, hrun, rfl⟩ := step_resume hs
    have hstart : (t.world.note (.started .server (.executeUntilEvent S))).Agrees
        (t'.world.note (.started .server (.executeUntilEvent S))) :=
      h.world.started .server (.executeUntilEvent S)
    have hend : (World.run {} .server (resumeUntilEvent .debug S)
        (t.world.note (.started .server (.executeUntilEvent S)))).1.ending? =
          some (.returned ()) := by
      rw [hrun]
      rfl
    have hfault : ∀ f, Prog.Ending.returned () ≠ .stopped (Halt.fault f) := by
      rintro f ⟨⟩
    have hgo := World.run_withoutAssert (withoutAssert_resumeUntilEvent S) hstart hend hfault
    rw [hrun] at hgo
    obtain ⟨w', hrun', hw⟩ := hgo hsilent
    have hcache : flushed t'.world w' t'.cache = flushed t.world w t.cache := by
      unfold flushed
      rw [h.world.flushes_eq, hw.flushes_eq, h.cache]
    refine ⟨⟨w', some S, flushed t'.world w' t'.cache⟩, ?_, hw, rfl, hcache⟩
    simp only [step, h.waiting, hwait, if_true]
    rw [hrun']
  | stop env =>
    obtain ⟨S, x, hS, hx, rfl⟩ := step_stop hs
    obtain ⟨hend, hfault⟩ := ending?_of_endingOf hx
    have huntil : WithoutAssert (untilEvent .debug) (untilEvent .ndebug) :=
      withoutAssert_map _ withoutAssert_stopAtEvent
    obtain ⟨w', hrun, hw⟩ := World.run_withoutAssert huntil h.world hend hfault hsilent
    refine ⟨{ t' with world := w'.note (.ended .server (.executeUntilEvent S) x), waiting := none },
      ?_, hw.ended _ _ _, rfl, h.cache⟩
    simp only [step, h.waiting, hS, hrun, hx, Option.map_some]
  | callback u op env =>
    obtain ⟨hc, x, w, hal, rfl⟩ := step_callback hs
    obtain ⟨w', hal', hw⟩ := World.alone_withoutAssert h.world hal hsilent
    have hc' : t'.world.canStart (.app u) op = true := by
      obtain ⟨⟨l, hl⟩, -⟩ := h.world
      rw [hl]
      exact hc
    refine ⟨{ t' with world := w', cache := built op x ++ t'.cache }, ?_, hw, h.waiting,
      congrArg (built op x ++ ·) h.cache⟩
    simp only [step, hc', hal', if_true, Option.map_some]
  | unload modinfo =>
    obtain ⟨hsus, rfl⟩ := step_unload hs
    obtain ⟨⟨l, hl⟩, hreq⟩ := h.world
    have hstep : t'.step .ndebug (.unload modinfo) =
        some { t' with world := { t'.world with modules := t'.world.modules.erase modinfo } } := by
      simp only [step, hl, hsus, Bool.false_eq_true, if_false]
    refine ⟨_, hstep, ⟨⟨l, ?_⟩, hreq⟩, h.waiting, h.cache⟩
    simp only [hl]
  | evict n =>
    obtain rfl := Option.some.inj hs
    exact ⟨_, rfl, h.world, h.waiting, congrArg (List.eraseIdx · n) h.cache⟩

theorem silent_query {op : Operation} {env : Env} (hq : op.isQuery env = true)
    (hdel : ∀ bp, op ≠ .delBreakpoint bp) : Silent (op.prog .debug) := by
  cases op with
  | addBreakpoint bp => exact .bind (silent_addBreakpoint bp) fun _ => trivial
  | delBreakpoint bp => exact absurd rfl (hdel bp)
  | getBreakpoints => exact .bind silent_getBreakpoints fun _ => trivial
  | getCodeBlock => exact .bind silent_getCodeBlock fun _ => trivial
  | getContext => exact .bind silent_getContext fun _ => trivial
  | _ => cases hq

theorem silent_untilEvent : Silent (untilEvent .debug) := by
  refine .bind (silent_step rfl fun _ => .bind ?_ fun _ => ?_) fun _ => trivial
  · refine .bind (.bind (silent_step rfl fun _ => trivial) fun c => ?_) fun _ =>
      silent_step rfl fun _ => ?_
    · cases c <;> trivial
    · exact ⟨rfl, fun c _ => silent_drAssert c⟩
  · exact silent_step rfl fun g => silent_check fun _ => .bind (silent_deref _) fun _ => trivial

/-- Of the asserted requests `os`, a quiet step makes none, and any other asks for a flush. -/
structure Asserts (t : Target) (l : Activity) (os : List Op) : Prop where
  quiet : t.Quiet l → os = []
  flush : .drDelayFlushRegion ∉ os → t.Quiet l

theorem Asserts.eq_nil_iff {os : List Op} (h : t.Asserts l os) : os = [] ↔ t.Quiet l :=
  ⟨fun hnil => h.flush (by simp [hnil]), h.quiet⟩

theorem asserts_nil (h : t.Quiet l) : t.Asserts l [] :=
  ⟨fun _ => rfl, fun _ => h⟩

/-- The asserted requests of a call. -/
theorem asserted_call {op : Operation} {env : Env} (hok : t.Ok)
    (hs : t.step .debug (.call op env) = some t₁) :
    ∃ os, t₁.world.asserted = os ++ t.world.asserted ∧ t.Asserts (.call op env) os := by
  obtain ⟨-, hq, x, w, hal, rfl⟩ := step_call hs
  by_cases hdel : ∃ bp, op = .delBreakpoint bp
  · obtain ⟨bp, rfl⟩ := hdel
    have hasks := (World.asks_delBreakpoint env .server hok.mutex bp).map
      fun _ => Result.void
    refine ⟨_, World.asserted_alone hal hasks (Or.inr rfl), fun hquiet => ?_, fun hno => ?_⟩
    · split
      · rename_i addr hpl
        rw [if_pos (hquiet.delete bp env addr rfl hpl)]
        rfl
      · rfl
    · refine quiet_delete fun addr hpl => ?_
      rw [hpl] at hno
      by_contra hfind
      simp [if_neg hfind] at hno
  · have hne : ∀ bp, op ≠ .delBreakpoint bp := fun bp h => hdel ⟨bp, h⟩
    refine ⟨[], World.asserted_alone hal (.of_silent (silent_query hq hne)) (Or.inr rfl), ?_⟩
    refine asserts_nil ⟨?_, ?_, ?_⟩
    · rintro S ⟨⟩
    · rintro bp env' addr hl -
      exact absurd (Activity.call.inj hl).1 (hne bp)
    · rintro u addr start endPc env' ⟨⟩

theorem silent_callback {w : World} {u : ℕ} {op : Operation} (hc : w.canStart (.app u) op = true)
    (hhit : ∀ addr start endPc, op ≠ .cleanCall (.updateFastforwardCount addr start endPc)) :
    Silent (op.prog .debug) := by
  cases op with
  | cleanCall c =>
    cases c with
    | updateFastforwardCount addr start endPc => exact absurd rfl (hhit addr start endPc)
    | relevantBlockCleanCall start endPc =>
      exact .bind (silent_relevantBlockCleanCall start endPc) fun _ => trivial
  | eventModuleLoaded m => exact .bind (silent_eventModuleLoaded .debug m) fun _ => trivial
  | eventBasicBlock bb => exact .bind (silent_eventBasicBlock bb) fun _ => trivial
  | _ => cases hc

/-- The asserted requests of a callback. -/
theorem asserted_callback {u : ℕ} {op : Operation} {env : Env} (hok : t.Ok)
    (hs : t.step .debug (.callback u op env) = some t₁) :
    ∃ os, t₁.world.asserted = os ++ t.world.asserted ∧ t.Asserts (.callback u op env) os := by
  obtain ⟨hc, x, w, hal, rfl⟩ := step_callback hs
  obtain ⟨S, hS⟩ := hok.runs hc
  by_cases hhit : ∃ addr start endPc, op = .cleanCall (.updateFastforwardCount addr start endPc)
  · obtain ⟨addr, start, endPc, rfl⟩ := hhit
    have hasks := (World.asks_updateFastforwardCount env (.app u) hok.mutex
      hS.stopEvents addr start endPc).map fun _ => Result.void
    refine ⟨_, World.asserted_alone hal hasks (Or.inl hS.acts), fun hquiet => ?_, fun hno => ?_⟩
    · rw [if_neg (hquiet.hit u addr start endPc env rfl)]
      rfl
    · refine quiet_hit fun hnone => ?_
      simp [if_pos hnone] at hno
  · have hne : ∀ addr start endPc,
        op ≠ .cleanCall (.updateFastforwardCount addr start endPc) :=
      fun addr start endPc h => hhit ⟨addr, start, endPc, h⟩
    have hasks : World.Asks env (.app u) (t.world.enter op) (op.prog .debug) [] :=
      .of_silent (silent_callback hc hne)
    refine ⟨[], World.asserted_alone hal hasks (Or.inl hS.acts), ?_⟩
    refine asserts_nil ⟨by rintro S ⟨⟩, by rintro bp env' addr ⟨⟩, ?_⟩
    rintro u' addr start endPc env' hl -
    exact hne addr start endPc (Activity.callback.inj hl).2.1

/-- A step makes asserted requests just if it is not quiet. -/
theorem asserted_step (hok : t.Ok) (hs : t.step .debug l = some t₁) :
    ∃ os, t₁.world.asserted = os ++ t.world.asserted ∧ t.Asserts l os := by
  cases l with
  | call op env => exact asserted_call hok hs
  | resume S =>
    obtain ⟨hwait, w, hrun, rfl⟩ := step_resume hs
    obtain ⟨params, hp⟩ : ∃ params, t.world.globals.suspendParams = some params := by
      rw [← Option.isSome_iff_exists, hok.params, hwait]
      rfl
    have hlogs : t.world.Logs (t.world.note (.started .server (.executeUntilEvent S))) := ⟨_, rfl⟩
    have hasks := World.Asks.of_performs (World.performs_resumeUntilEvent {} S hok.mutex hp)
    have hrest := hasks.asserted_run (Or.inr rfl) hlogs
    rw [hrun] at hrest
    refine ⟨_, hrest, fun hquiet => absurd rfl (hquiet.resume S), fun hno => absurd ?_ hno⟩
    exact List.mem_reverse.mpr (List.mem_filter.mpr ⟨by simp, rfl⟩)
  | stop env =>
    obtain ⟨S, x, -, -, rfl⟩ := step_stop hs
    exact ⟨[], World.asserted_run_silent _ _ silent_untilEvent, asserts_nil ⟨nofun, nofun, nofun⟩⟩
  | callback u op env => exact asserted_callback hok hs
  | unload modinfo =>
    obtain ⟨-, rfl⟩ := step_unload hs
    exact ⟨[], rfl, asserts_nil ⟨nofun, nofun, nofun⟩⟩
  | evict n =>
    obtain rfl := Option.some.inj hs
    exact ⟨[], rfl, asserts_nil ⟨nofun, nofun, nofun⟩⟩

theorem flushes_le (hok : t.Ok) (hs : t.step .debug l = some t₁) :
    t.world.flushes ≤ t₁.world.flushes := by
  obtain ⟨os, hos, -⟩ := asserted_step hok hs
  rw [World.flushes_eq_count, World.flushes_eq_count, hos, List.count_append]
  omega

/-- A step asks for a flush just if it is not quiet. -/
theorem flushes_eq_iff_quiet (hok : t.Ok) (hs : t.step .debug l = some t₁) :
    t₁.world.flushes = t.world.flushes ↔ t.Quiet l := by
  obtain ⟨os, hos, hasks⟩ := asserted_step hok hs
  rw [World.flushes_eq_count, World.flushes_eq_count, hos, List.count_append,
    Nat.add_eq_right, List.count_eq_zero]
  exact ⟨hasks.flush, fun hquiet => by simp [hasks.quiet hquiet]⟩

/-- Without `assert` no step makes an asserted request. -/
theorem asserted_step_ndebug (hs : t.step .ndebug l = some t₁) :
    t₁.world.asserted = t.world.asserted := by
  cases l with
  | call op env =>
    obtain ⟨-, -, x, w, hal, rfl⟩ := step_call hs
    exact World.asserted_alone_ndebug hal
  | resume S =>
    obtain ⟨-, w, hrun, rfl⟩ := step_resume hs
    have hrest := World.asserted_run_silent {} .server
      (w := t.world.note (.started .server (.executeUntilEvent S)))
      (withoutAssert_resumeUntilEvent S).within
    rw [hrun] at hrest
    exact hrest
  | stop env =>
    obtain ⟨S, x, -, -, rfl⟩ := step_stop hs
    have huntil : WithoutAssert (untilEvent .debug) (untilEvent .ndebug) :=
      withoutAssert_map _ withoutAssert_stopAtEvent
    exact World.asserted_run_silent _ _ huntil.within
  | callback u op env =>
    obtain ⟨-, x, w, hal, rfl⟩ := step_callback hs
    exact World.asserted_alone_ndebug hal
  | unload modinfo =>
    obtain ⟨-, rfl⟩ := step_unload hs
    rfl
  | evict n =>
    obtain rfl := Option.some.inj hs
    rfl

/-! ## Runs in both builds -/

/-- Every step of the run from `t` is quiet. -/
def QuietRun : List Activity → Target → Prop
  | [], _ => True
  | l :: ls, t => t.Quiet l ∧ ∀ t₁, t.step .debug l = some t₁ → QuietRun ls t₁

variable {ls : List Activity}

theorem foldlM_cons {b : Build} :
    (l :: ls).foldlM (step b) t = some t₁ ↔
      ∃ t₂, t.step b l = some t₂ ∧ ls.foldlM (step b) t₂ = some t₁ := by
  rw [List.foldlM_cons, Option.bind_eq_bind, Option.bind_eq_some_iff]

theorem asserted_run (hok : t.Ok) (hrun : ls.foldlM (step .debug) t = some t₁) :
    ∃ os, t₁.world.asserted = os ++ t.world.asserted ∧ (os = [] ↔ QuietRun ls t) := by
  induction ls generalizing t with
  | nil =>
    obtain rfl : t = t₁ := by simpa using hrun
    exact ⟨[], rfl, iff_of_true rfl trivial⟩
  | cons l ls ih =>
    obtain ⟨t₂, hs, hrun⟩ := foldlM_cons.mp hrun
    obtain ⟨os, hos, hasks⟩ := asserted_step hok hs
    obtain ⟨os', hos', hquiet'⟩ := ih (book_step hok hs).1 hrun
    refine ⟨os' ++ os, by rw [hos', hos, List.append_assoc], ?_⟩
    rw [List.append_eq_nil_iff, hasks.eq_nil_iff, hquiet', and_comm]
    refine and_congr Iff.rfl ⟨fun h t₂' hs' => ?_, fun h => h t₂ hs⟩
    rwa [← Option.some.inj (hs.symm.trans hs')]

theorem asserted_run_ndebug (hrun : ls.foldlM (step .ndebug) t = some t₁) :
    t₁.world.asserted = t.world.asserted := by
  induction ls generalizing t with
  | nil =>
    obtain rfl : t = t₁ := by simpa using hrun
    rfl
  | cons l ls ih =>
    obtain ⟨t₂, hs, hrun⟩ := foldlM_cons.mp hrun
    exact (ih hrun).trans (asserted_step_ndebug hs)

/-- A quiet run goes the same way without `assert`. -/
theorem run_withoutAssert (hok : t.Ok) (h : t.Agrees t') (hquiet : QuietRun ls t)
    (hrun : ls.foldlM (step .debug) t = some t₁) :
    ∃ t₁', ls.foldlM (step .ndebug) t' = some t₁' ∧ t₁.Agrees t₁' := by
  induction ls generalizing t t' with
  | nil =>
    obtain rfl : t = t₁ := by simpa using hrun
    exact ⟨t', rfl, h⟩
  | cons l ls ih =>
    obtain ⟨t₂, hs, hrun⟩ := foldlM_cons.mp hrun
    obtain ⟨os, hos, hasks⟩ := asserted_step hok hs
    rw [hasks.quiet hquiet.1] at hos
    obtain ⟨t₂', hs', h₂⟩ := step_withoutAssert h hs hos
    obtain ⟨t₁', hrun', h₁⟩ := ih (book_step hok hs).1 h₂ (hquiet.2 t₂ hs) hrun
    exact ⟨t₁', foldlM_cons.mpr ⟨t₂', hs', hrun'⟩, h₁⟩

/-- A run in which no assertion fails makes the same requests and leaves the same globals without
`assert`, just if it is quiet. -/
theorem sameRun_iff (hok : t.Ok) (h : t.Agrees t') (hrun : ls.foldlM (step .debug) t = some t₁) :
    (∃ t₁', ls.foldlM (step .ndebug) t' = some t₁' ∧
      t₁'.world.requests = t₁.world.requests ∧ t₁'.world.globals = t₁.world.globals) ↔
      QuietRun ls t := by
  constructor
  · rintro ⟨t₁', hrun', hreq, -⟩
    obtain ⟨os, hos, hquiet⟩ := asserted_run hok hrun
    have hsame : t₁.world.asserted = t.world.asserted := calc
      t₁.world.asserted = t₁'.world.asserted := congrArg (List.filter Op.isAsserted) hreq.symm
      _ = t'.world.asserted := asserted_run_ndebug hrun'
      _ = t.world.asserted := h.world.asserted_eq
    exact hquiet.mp (List.append_left_eq_self.mp (hos.symm.trans hsame))
  · intro hquiet
    obtain ⟨t₁', hrun', hw⟩ := run_withoutAssert hok h hquiet hrun
    refine ⟨t₁', hrun', hw.world.2, ?_⟩
    obtain ⟨l, hl⟩ := hw.world.1
    rw [hl]

/-- A breakpoint with two hits to go, in an application that runs. -/
def counting : Target :=
  after .debug [] [.call (.addBreakpoint (absBreakpoint 16 2)) {}, .resume {.breakpoint}]

/-- Both hits, and the stop. -/
def bothHits : List Activity :=
  [.callback 1 (.cleanCall (.updateFastforwardCount 16 16 20)) {},
    .callback 1 (.cleanCall (.updateFastforwardCount 16 16 20)) {}, .stop {}]

/-- From there a breakpoint fires in the same way in both builds. -/
theorem sameRun_iff_bothHits :
    ∃ t₁', bothHits.foldlM (step .ndebug) counting = some t₁' ∧
      t₁'.world.requests = [.drSuspendAllOtherThreads, .drResumeAllOtherThreads ⟨0, 0⟩,
        .drDelayFlushRegion, .drSuspendAllOtherThreads] ∧
      t₁'.world.globals =
        ((bothHits.foldlM (step .debug) counting).getD counting).world.globals := by
  have hreached : counting.ReachedBy .debug fun _ _ => True :=
    reachedBy_after .debug [] fun _ _ _ => trivial
  have hrun : bothHits.foldlM (step .debug) counting =
      some ((bothHits.foldlM (step .debug) counting).getD counting) := rfl
  refine (sameRun_iff hreached.ok ⟨.refl _, rfl, rfl⟩ hrun).mpr ?_
  refine ⟨quiet_hit nofun, fun t₁ h₁ => ?_⟩
  obtain rfl := Option.some.inj h₁
  refine ⟨quiet_hit nofun, fun t₁ h₁ => ?_⟩
  exact ⟨⟨nofun, nofun, nofun⟩, fun _ _ => trivial⟩

/-- The call that resumes the application does not resume it without `assert`. -/
theorem not_sameRun :
    ¬∀ (modules : List Module) (ls : List Activity) (t₁ : Target),
      ls.foldlM (step .debug) (boot .debug modules) = some t₁ →
      ∃ t₁', ls.foldlM (step .ndebug) (boot .ndebug modules) = some t₁' ∧
        t₁'.world.requests = t₁.world.requests ∧ t₁'.world.globals = t₁.world.globals := by
  intro h
  obtain ⟨t₁', hrun, hreq, -⟩ := h [] [.resume {}] _ rfl
  obtain rfl := Option.some.inj hrun
  cases hreq

end Target

end ConcreteEval
