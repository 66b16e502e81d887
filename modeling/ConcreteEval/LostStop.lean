import ConcreteEval.Freshness
import ConcreteEval.StopRecord

/-!
# No fired breakpoint is lost

A breakpoint that has fired is erased before it is reported, so its stop record is all that
is left of it. `breakpointRecord` reads off the log which thread stored the record that is
in `stopped_context`, and whether a call has returned it. A log loses no stop if nothing is
stored over such a record, or clears it, before it is returned, and none is returned twice
(`LosesNone`).

Storing and signalling are not one step, and only `update_fastforward_count` takes the mutex
for them. As long as no thread enters `suspend_helper` where that could touch the record of
another thread's breakpoint (`EntersApart`), no stop is lost (`no_lost_stop`); without that
one can be (`not_no_lost_stop`).
-/

namespace ConcreteEval

/-! ## The record of a breakpoint -/

/-- The thread that stored the breakpoint event in `stopped_context`, if there is one, and
whether a call has returned the event. -/
def breakpointRecord : List Mark → Option (ℕ × Bool)
  | .did (.app t) (.write (.stoppedContext (some (.breakpoint, _)))) :: _ => some (t, false)
  | .did _ (.write (.stoppedContext _)) :: _ => none
  | .ended .server (.executeUntilEvent _) (.returned (.event .breakpoint)) :: l =>
    (breakpointRecord l).map fun r => (r.1, true)
  | _ :: l => breakpointRecord l
  | [] => none

/-- The mark touches the record of a breakpoint only after it has been returned, but for the
second store of its own thread, and returns it only once. -/
structure LosesNone (x : Mark) (older : List Mark) : Prop where
  stores : x.storesContext = true → ∀ t, breakpointRecord older ≠ some (t, false)
  block : ∀ a c, x = .did a (.write (.stoppedBlock c)) → ∀ t,
    breakpointRecord older = some (t, false) → a = .app t
  returns : ∀ S, x = .ended .server (.executeUntilEvent S) (.returned (.event .breakpoint)) →
    ∃ t, breakpointRecord older = some (t, false)

theorem breakpointRecord_did {a : Actor} {o : Op} {l : List Mark}
    (h : (Mark.did a o).storesContext = false) :
    breakpointRecord (.did a o :: l) = breakpointRecord l := by
  cases o with
  | write x =>
    cases x with
    | stoppedContext c => cases h
    | _ => cases a <;> rfl
  | _ => cases a <;> rfl

theorem breakpointRecord_store {t : ℕ} {e : EventType} (mc : Mcontext) {l : List Mark} :
    breakpointRecord (.did (.app t) (.write (.stoppedContext (some (e, mc)))) :: l) =
      if e = .breakpoint then some (t, false) else none := by
  cases e <;> rfl

/-- What a call that ends does to the record. -/
theorem breakpointRecord_ended (op : Operation) (x : Prog.Ending Halt Result) (l : List Mark) :
    breakpointRecord (.ended .server op x :: l) = breakpointRecord l ∨
      (∃ S, op = .executeUntilEvent S) ∧ x = .returned (.event .breakpoint) ∧
        breakpointRecord (.ended .server op x :: l) =
          (breakpointRecord l).map fun r => (r.1, true) := by
  cases op with
  | executeUntilEvent S =>
    cases x with
    | returned r =>
      cases r with
      | event e =>
        cases e with
        | breakpoint => exact Or.inr ⟨⟨S, rfl⟩, rfl, rfl⟩
        | _ => exact Or.inl rfl
      | _ => exact Or.inl rfl
    | stopped e => exact Or.inl rfl
  | _ => exact Or.inl rfl

/-- The event of a thread in `suspend_helper` before it stores the event. -/
def Phase.entered? : Phase → Option EventType
  | .begun e | .sampled e => some e
  | _ => none

/-- The event of a thread in `suspend_helper` before its last store. -/
def Phase.storing? : Phase → Option EventType
  | .begun e | .sampled e | .context e => some e
  | _ => none

/-- The thread has not found its event in the stop events. -/
def Phase.Unarmed : Phase → Prop
  | .quiet | .fired _ => True
  | _ => False

theorem Phase.storing?_of_entered? {p : Phase} {e : EventType} (h : p.entered? = some e) :
    p.storing? = some e := by
  cases p <;> first | exact h | cases h

theorem Phase.cases_look {p : Phase} {g : Globals} :
    p.look g = p ∨ (∃ e, p = .fired e) ∧ (p.look g = .quiet ∨
      ∃ e S, p.look g = .armed e S ∧ g.stopEvents = some S) := by
  cases p with
  | fired e =>
    refine Or.inr ⟨⟨e, rfl⟩, ?_⟩
    unfold Phase.look
    cases hS : g.stopEvents with
    | none => exact Or.inl rfl
    | some S =>
      by_cases he : e ∈ S
      · exact Or.inr ⟨e, S, by simp [he], rfl⟩
      · exact Or.inl (by simp [he])
  | _ => exact Or.inl rfl

theorem Operation.phase_unarmed (op : Operation) : op.phase.Unarmed := by
  cases op with
  | cleanCall c => cases c <;> trivial
  | _ => trivial

theorem Write.fires_unarmed (x : Write) : x.fires.Unarmed := by
  cases x <;> trivial

theorem Phase.Unarmed.storing? {p : Phase} (h : p.Unarmed) : p.storing? = none := by
  cases p <;> first | rfl | cases h

theorem Phase.Unarmed.look {p : Phase} {g : Globals} (h : p.Unarmed) (hg : g.stopEvents = none) :
    (p.look g).Unarmed := by
  rcases Phase.cases_look (p := p) (g := g) with hp | ⟨-, hp | ⟨e, S, -, hS⟩⟩
  · rwa [hp]
  · rw [hp]
    trivial
  · simp [hg] at hS

/-! ## The invariant -/

namespace View

variable {v v' : View} {x : Option (Actor × Op)}

/-- The breakpoint's thread is alone in `suspend_helper` up to its last store, and what it
stores stays until a call has returned it. -/
structure Kept (v : View) : Prop where
  alone : ∀ t u, t ≠ u → (v.phase t).entered? = some .breakpoint → (v.phase u).storing? = none
  entered : ∀ mc, v.world.globals.stoppedContext = some (.breakpoint, mc) →
    ∀ t, (v.phase t).entered? = none
  own : ∀ t r, breakpointRecord v.world.log = some (t, r) → ∀ u e,
    (v.phase u).storing? = some e → u = t
  record : (∃ r, breakpointRecord v.world.log = some r) ↔
    ∃ mc, v.world.globals.stoppedContext = some (.breakpoint, mc)
  returned : ¬v.stage.InWindow → ∀ t, breakpointRecord v.world.log ≠ some (t, false)
  window : v.stage.InWindow → ∀ t, breakpointRecord v.world.log ≠ some (t, true)
  start : v.call = some .serverThread → v.world.globals.stopEvents = none
  unarmed : v.world.globals.stopEvents = none → v.world.globals.stoppedContext = none ∧
    ∀ t, (v.phase t).Unarmed
  cleared : v.stage = .clearing ∨ v.stage = .cleared → v.world.globals.stoppedContext = none

theorem kept_boot (modules : List Module) : (boot modules).Kept where
  alone t u _ h := by cases h
  entered mc h := by cases h
  own t r h := by cases h
  record := by simp [boot, breakpointRecord]
  returned _ t h := by cases h
  window _ t h := by cases h
  start _ := rfl
  unarmed _ := ⟨rfl, fun _ => trivial⟩
  cleared _ := rfl

/-- A step after which `stopped_context` and its record are the same, and no thread is further
in `suspend_helper`. -/
theorem Kept.keep (hv : v.Kept)
    (hc : v'.world.globals.stoppedContext = v.world.globals.stoppedContext)
    (hr : breakpointRecord v'.world.log = breakpointRecord v.world.log)
    (he : ∀ t e, (v'.phase t).entered? = some e → (v.phase t).entered? = some e)
    (hs : ∀ t e, (v'.phase t).storing? = some e → (v.phase t).storing? = some e)
    (hw : v'.stage.InWindow ↔ v.stage.InWindow)
    (hstart : v'.call = some .serverThread → v'.world.globals.stopEvents = none)
    (hu : v'.world.globals.stopEvents = none →
      v.world.globals.stopEvents = none ∧ ∀ t, (v'.phase t).Unarmed)
    (hcl : v'.stage = .clearing ∨ v'.stage = .cleared → v.world.globals.stoppedContext = none) :
    v'.Kept where
  alone t u hne ht := by
    have hnone := hv.alone t u hne (he t _ ht)
    by_contra h
    obtain ⟨e, h⟩ := Option.ne_none_iff_exists'.mp h
    simp [hs u e h] at hnone
  entered mc h t := by
    by_contra ht
    obtain ⟨e, ht⟩ := Option.ne_none_iff_exists'.mp ht
    simpa [he t e ht] using hv.entered mc (hc.symm.trans h) t
  own t r h u e hu := hv.own t r (hr.symm.trans h) u e (hs u e hu)
  record := by rw [hr, hc, hv.record]
  returned h t := by
    rw [hr]
    exact hv.returned (mt hw.mpr h) t
  window h t := by
    rw [hr]
    exact hv.window (hw.mp h) t
  start := hstart
  unarmed h := ⟨hc.trans (hv.unarmed (hu h).1).1, (hu h).2⟩
  cleared h := hc.trans (hcl h)

/-- Where `stopped_context` has no breakpoint there is no record of one. -/
theorem Kept.record_eq_none (hv : v.Kept)
    (h : ∀ mc, v.world.globals.stoppedContext ≠ some (.breakpoint, mc)) :
    breakpointRecord v.world.log = none := by
  by_contra hr
  obtain ⟨mc, hmc⟩ := hv.record.mp (Option.ne_none_iff_exists'.mp hr)
  exact h mc hmc

/-- No thread enters `suspend_helper` while the record of a breakpoint is stored there; nor
while another is in it, ahead of its stores, if one of the two could store over the other's
breakpoint. -/
def EntersApart (v : View) (a : Actor) (o : Op) : Prop :=
  ∀ t, a = .app t → o = .drGetCurrentDrcontext →
    (∀ mc, v.world.globals.stoppedContext ≠ some (.breakpoint, mc)) ∧
    ∀ u, u ≠ t → ((v.phase t).event? = some .breakpoint → (v.phase u).storing? = none) ∧
      (v.phase u).entered? ≠ some .breakpoint

/-- A thread does something other than storing `stopped_context`, and does not enter
`suspend_helper`. -/
theorem Kept.appDid (hv : v.Kept) {t : ℕ} {o : Op} {w : World} {p : Phase}
    (h : v.AppStep t o w p) (ho : (Mark.did (.app t) o).storesContext = false)
    (hc : w.globals.stoppedContext = v.world.globals.stoppedContext)
    (he : ∀ e, p.entered? = some e → (v.phase t).entered? = some e)
    (hs : ∀ e, p.storing? = some e → (v.phase t).storing? = some e)
    (hu : v.world.globals.stopEvents = none → p.Unarmed) : (v.appDid t o w p).Kept := by
  obtain ⟨-, -, hse⟩ := h.frame
  refine hv.keep hc ?_ (fun u e => ?_) (fun u e => ?_) Iff.rfl ?_ ?_ hv.cleared
  · simpa [View.appDid, h.log] using breakpointRecord_did ho
  · by_cases hut : u = t
    · subst hut
      simpa [View.appDid] using he e
    · simp [View.appDid, hut]
  · by_cases hut : u = t
    · subst hut
      simpa [View.appDid] using hs e
    · simp [View.appDid, hut]
  · exact fun h => hse.trans (hv.start h)
  · intro h
    have hnone := hse.symm.trans h
    refine ⟨hnone, fun u => ?_⟩
    by_cases hut : u = t
    · subst hut
      simpa [View.appDid] using hu hnone
    · simpa [View.appDid, hut] using (hv.unarmed hnone).2 u

theorem AppStep.kept {t : ℕ} {o : Op} {w : World} {p : Phase} (h : v.AppStep t o w p)
    (hs : v.stage.Awake) (hv : v.Kept) (hcond : v.EntersApart (.app t) o) :
    (v.appDid t o w p).Kept := by
  have hun : v.world.globals.stopEvents = none → (v.phase t).Unarmed :=
    fun h => (hv.unarmed h).2 t
  have hstep := h
  cases h with
  | neutral hp ho =>
    exact hv.appDid hstep (Mark.plain.storesContext (Op.plain_of_isNeutral ho)) rfl nofun nofun
      fun _ => trivial
  | read =>
    refine hv.appDid hstep rfl rfl (fun e he => ?_) (fun e he => ?_) fun h => (hun h).look h
    · rcases Phase.cases_look (p := v.phase t) (g := v.world.globals) with hp | ⟨-, hp | hp⟩
      · rwa [hp] at he
      · simp [hp, Phase.entered?] at he
      · obtain ⟨e', S, hp, -⟩ := hp
        simp [hp, Phase.entered?] at he
    · rcases Phase.cases_look (p := v.phase t) (g := v.world.globals) with hp | ⟨-, hp | hp⟩
      · rwa [hp] at he
      · simp [hp, Phase.storing?] at he
      · obtain ⟨e', S, hp, -⟩ := hp
        simp [hp, Phase.storing?] at he
  | @edit x hp hx =>
    have hnone := x.fires_unarmed.storing?
    refine hv.appDid hstep (Mark.plain.storesContext (Write.plain_of_edits hx))
      (Write.stoppedContext_of_edits hx _) (fun e he => ?_) (fun e he => ?_)
      fun _ => Write.fires_unarmed _
    · simp [Phase.storing?_of_entered? he] at hnone
    · simp [hnone] at he
  | lock hp | unlock hp | signal hp =>
    exact hv.appDid hstep rfl rfl nofun nofun fun _ => trivial
  | sample hp =>
    rw [hp] at hun
    refine hv.appDid hstep rfl rfl (fun e he => ?_) (fun e he => ?_) hun
    · rw [hp]
      exact he
    · rw [hp]
      exact he
  | storeBlock hp =>
    rw [hp] at hun
    exact hv.appDid hstep rfl rfl nofun nofun hun
  | @begin e S hp =>
    rw [hp] at hun
    obtain ⟨hctx, hothers⟩ := hcond t rfl rfl
    have hnone := hv.record_eq_none hctx
    exact {
      alone := fun a u hne ha => by
        by_cases hat : a = t
        · subst hat
          obtain rfl : e = .breakpoint := by simpa [View.appDid, Phase.entered?] using ha
          simpa [View.appDid, hne.symm] using (hothers u hne.symm).1 (by simp [hp, Phase.event?])
        · exact absurd (by simpa [View.appDid, hat] using ha) (hothers a hat).2
      entered := fun mc h => absurd h (hctx mc)
      own := fun t' r h => by cases hnone.symm.trans h
      record := hv.record
      returned := hv.returned
      window := hv.window
      start := hv.start
      unarmed := fun h => (hun h).elim
      cleared := hv.cleared }
  | @storeContext e mc hp =>
    rw [hp] at hun
    have hothers : e = .breakpoint → ∀ u, u ≠ t → (v.phase u).storing? = none := by
      rintro rfl u hut
      exact hv.alone t u hut.symm (by simp [hp, Phase.entered?])
    have hrec : breakpointRecord ((v.appDid t (.write (.stoppedContext (some (e, mc))))
        (v.writes (.stoppedContext (some (e, mc)))) (.context e)).world.log) =
          if e = .breakpoint then some (t, false) else none :=
      breakpointRecord_store mc
    exact {
      alone := fun a u hne ha => by
        by_cases hat : a = t
        · subst hat
          simp [View.appDid, Phase.entered?] at ha
        · have hnone := hv.alone a t hat (by simpa [View.appDid, hat] using ha)
          simp [hp, Phase.storing?] at hnone
      entered := fun mc' h u => by
        obtain ⟨rfl, -⟩ : e = .breakpoint ∧ mc = mc' := by
          simpa [View.appDid, Write.apply] using h
        by_cases hut : u = t
        · subst hut
          simp [View.appDid, Phase.entered?]
        · by_contra hu
          obtain ⟨e', hu⟩ := Option.ne_none_iff_exists'.mp hu
          have hu' := Phase.storing?_of_entered? (by simpa [View.appDid, hut] using hu)
          simp [hothers rfl u hut] at hu'
      own := fun t' r h u e' hu => by
        rw [hrec] at h
        split_ifs at h with he
        obtain ⟨rfl, -⟩ : t = t' ∧ false = r := by simpa using h
        by_contra hut
        simp [View.appDid, hut, hothers he u hut] at hu
      record := by
        rw [hrec]
        by_cases he : e = .breakpoint <;> simp [he, View.appDid, Write.apply]
      returned := fun h => absurd (Or.inl hs) h
      window := fun _ t' => by
        rw [hrec]
        split_ifs <;> simp
      start := hv.start
      unarmed := fun h => (hun h).elim
      cleared := fun h => by
        rcases h with h | h <;> simp [View.appDid] at h <;> simp [h, Stage.awake_iff] at hs }

/-- The server does something that leaves it on its side of the window, and that is not
clearing `stopped_context`. -/
theorem Kept.serverDid (hv : v.Kept) {o : Op} {w : World} {s : Stage} (h : v.ServerStep o w s)
    (hs : v.stage ≠ .ready) (hw : s.InWindow ↔ v.stage.InWindow)
    (hse : w.globals.stopEvents = v.world.globals.stopEvents) : (v.serverDid o w s).Kept := by
  obtain ⟨hc, ho⟩ := h.stoppedContext hs
  refine hv.keep hc ?_ (fun _ _ => id) (fun _ _ => id) hw (fun h => hse.trans (hv.start h))
    (fun h => ?_) (fun hs => hc.symm.trans (h.cleared hv.cleared hs))
  · simpa [View.serverDid, h.log] using breakpointRecord_did ho
  · have hnone := hse.symm.trans h
    exact ⟨hnone, (hv.unarmed hnone).2⟩

theorem ServerStep.kept {o : Op} {w : World} {s : Stage} (h : v.ServerStep o w s)
    (hv : v.Kept) : (v.serverDid o w s).Kept := by
  have hstep := h
  cases h with
  | neutral ho =>
    refine hv.keep rfl ?_ (fun _ _ => id) (fun _ _ => id) Iff.rfl hv.start
      (fun h => ⟨h, (hv.unarmed h).2⟩) hv.cleared
    exact breakpointRecord_did (Mark.plain.storesContext (Op.plain_of_isNeutral ho))
  | read hs =>
    exact hv.keep rfl rfl (fun _ _ => id) (fun _ _ => id) Iff.rfl hv.start
      (fun h => ⟨h, (hv.unarmed h).2⟩) hv.cleared
  | lock hs hm =>
    refine hv.serverDid hstep ?_ ?_ rfl <;>
      rcases Stage.locks_eq_some hs with ⟨⟨l, hst⟩, rfl⟩ | ⟨hst, rfl⟩ <;>
        simp [hst, Stage.InWindow, Stage.awake_iff]
  | unlock hs =>
    refine hv.serverDid hstep ?_ ?_ rfl <;>
      rcases Stage.unlocks_eq_some hs with ⟨hst, rfl⟩ | ⟨hst, rfl⟩ | ⟨hst, rfl⟩ <;>
        simp [hst, Stage.InWindow, Stage.awake_iff]
  | edit hc hop hs hx =>
    exact hv.serverDid hstep (by simp [hs]) Iff.rfl (Write.stopEvents_of_edits hx _)
  | setEvents hc hs =>
    refine hv.keep rfl rfl (fun _ _ => id) (fun _ _ => id) ?_ (fun h => ?_) ?_ ?_
    · simp [View.serverDid, hs, Stage.InWindow, Stage.awake_iff]
    · simp [View.serverDid, hc] at h
    · rintro ⟨⟩
    · rintro (⟨⟨⟩⟩ | ⟨⟨⟩⟩)
  | clearContext hs =>
    have hnone : ¬Stage.clearing.InWindow := by simp [Stage.InWindow, Stage.awake_iff]
    exact {
      alone := hv.alone
      entered := fun mc h => by simp [View.serverDid, Write.apply] at h
      own := fun t r h => by cases h
      record := by
        constructor
        · rintro ⟨r, h⟩
          cases h
        · rintro ⟨mc, h⟩
          simp [View.serverDid, Write.apply] at h
      returned := fun _ t h => by cases h
      window := fun h => absurd h hnone
      start := hv.start
      unarmed := fun h => ⟨rfl, (hv.unarmed h).2⟩
      cleared := fun _ => rfl }
  | resume hs =>
    have hrec := hv.record_eq_none fun mc => by simp [hv.cleared (Or.inr hs)]
    exact {
      alone := hv.alone
      entered := hv.entered
      own := hv.own
      record := hv.record
      returned := fun h => absurd (Or.inl (Or.inl rfl)) h
      window := fun _ t h => by cases hrec.symm.trans h
      start := hv.start
      unarmed := hv.unarmed
      cleared := by rintro (⟨⟨⟩⟩ | ⟨⟨⟩⟩) }
  | clearBlock hs | clearParams hs | wait hs | setParams hs | suspend hs | found _ hs
  | notFound _ hs =>
    refine hv.serverDid hstep ?_ ?_ rfl <;> simp [hs, Stage.InWindow, Stage.awake_iff]

/-- Where a call ends, the record of a breakpoint is not left unreturned. -/
theorem Kept.reply (hv : v.Kept) (hok : v.Ok) {op : Operation} {y : Prog.Ending Halt Result}
    (hc : v.call = some op) (hy : op.Replies y v.stage) (t : ℕ) :
    breakpointRecord (.ended .server op y :: v.world.log) ≠ some (t, false) := by
  cases op with
  | serverThread =>
    have hctx := (hv.unarmed (hv.start hc)).1
    have hnone := hv.record_eq_none fun mc => by simp [hctx]
    simp [breakpointRecord, hnone]
  | executeUntilEvent S =>
    rcases hy with ⟨e, rfl, hs⟩ | ⟨rfl, hs⟩
    · obtain ⟨mc, hctx⟩ := hok.found e hs
      cases e with
      | breakpoint => simp [breakpointRecord]
      | _ =>
        have hnone := hv.record_eq_none fun mc => by simp [hctx]
        simp [breakpointRecord, hnone]
    · have hnone := hv.record_eq_none fun mc => by simp [hok.failed hs]
      simp [breakpointRecord, hnone]
  | _ => exact hv.returned (Stage.Held.not_inWindow hy) t

theorem Step.kept (h : v.Step x v') (hok : v.Ok) (hv : v.Kept)
    (hcond : ∀ a o, x = some (a, o) → v.EntersApart a o) : v'.Kept := by
  have hun : v.world.globals.stopEvents = none →
      v.world.globals.stopEvents = none ∧ ∀ t, (v.phase t).Unarmed :=
    fun h => ⟨h, (hv.unarmed h).2⟩
  cases h with
  | @call op hc hop =>
    refine hv.keep rfl rfl (fun _ _ => id) (fun _ _ => id) Iff.rfl (fun h => ?_) hun hv.cleared
    obtain rfl : op = .serverThread := Option.some.inj h
    cases hop
  | @reply op y hc hy =>
    have hrest : ¬v.stage.rest.InWindow := v.stage.held_rest.not_inWindow
    have hrec := breakpointRecord_ended op y v.world.log
    exact {
      alone := hv.alone
      entered := hv.entered
      own := fun t r h => by
        rcases hrec with hr | ⟨-, -, hr⟩
        · exact hv.own t r (hr.symm.trans h)
        · obtain ⟨⟨t', r'⟩, ht, heq⟩ := Option.map_eq_some_iff.mp (hr.symm.trans h)
          obtain ⟨rfl, -⟩ := Prod.mk.inj heq
          exact hv.own _ r' ht
      record := by
        refine Iff.trans ?_ hv.record
        rcases hrec with hr | ⟨-, -, hr⟩
        · rw [World.note_log, hr]
        · rw [World.note_log, hr]
          simp [Option.map_eq_some_iff]
      returned := fun _ => hv.reply hok hc hy
      window := fun h => absurd h hrest
      start := nofun
      unarmed := hv.unarmed
      cleared := fun h => by
        obtain ⟨locked, hs⟩ := v.stage.held_rest
        simp [hs] at h }
  | server h => exact h.kept hv
  | @enter t op hw hop hp =>
    have hop' := op.phase_unarmed
    refine hv.keep (by simp) ?_ (fun u e he => ?_) (fun u e he => ?_) Iff.rfl (fun h => ?_)
      (fun h => ?_) hv.cleared
    · simp [breakpointRecord]
    · by_cases hu : u = t
      · subst hu
        have hnone := hop'.storing?
        simp [Phase.storing?_of_entered? (by simpa using he)] at hnone
      · simpa [hu] using he
    · by_cases hu : u = t
      · subst hu
        simp [hop'.storing?] at he
      · simpa [hu] using he
    · simpa using hv.start h
    · have hnone : v.world.globals.stopEvents = none := by simpa using h
      refine ⟨hnone, fun u => ?_⟩
      by_cases hu : u = t
      · subst hu
        simpa using hop'
      · simpa [hu] using (hv.unarmed hnone).2 u
  | app hw h => exact h.kept (hok.suspended.mp hw) hv (hcond _ _ rfl)
  | leave | unload =>
    exact hv.keep rfl rfl (fun _ _ => id) (fun _ _ => id) Iff.rfl hv.start hun hv.cleared

/-! ## What is logged loses no stop -/

theorem ServerStep.losesNone {o : Op} {w : World} {s : Stage} (h : v.ServerStep o w s)
    (hv : v.Kept) : LosesNone (.did .server o) v.world.log where
  stores ho := by
    have hs : v.stage = .ready := by
      by_contra hs
      simp [(h.stoppedContext hs).2] at ho
    exact hv.returned (by simp [hs, Stage.InWindow, Stage.awake_iff])
  block a c ho t ht := by
    obtain ⟨rfl, rfl⟩ : Actor.server = a ∧ o = .write (.stoppedBlock c) := by simpa using ho
    cases h with
    | neutral ho => cases ho
    | edit hc hop hs hx => cases hx
    | clearBlock hs =>
      exact absurd ht (hv.returned (by simp [hs, Stage.InWindow, Stage.awake_iff]) t)
  returns S ho := by cases ho

theorem AppStep.losesNone {t : ℕ} {o : Op} {w : World} {p : Phase} (h : v.AppStep t o w p)
    (hv : v.Kept) : LosesNone (.did (.app t) o) v.world.log where
  stores ho u hu := by
    rcases h.stoppedContext with ⟨-, ho'⟩ | ⟨e, mc, hp, -⟩
    · simp [ho'] at ho
    · obtain ⟨mc, hmc⟩ := hv.record.mp ⟨_, hu⟩
      have hnone := hv.entered mc hmc t
      simp [hp, Phase.entered?] at hnone
  block a c ho u hu := by
    obtain ⟨rfl, rfl⟩ : Actor.app t = a ∧ o = .write (.stoppedBlock c) := by simpa using ho
    cases h with
    | neutral hp ho => cases ho
    | edit hp hx => cases hx
    | @storeBlock e block hp => rw [hv.own u _ hu t e (by simp [hp, Phase.storing?])]
  returns S ho := by cases ho

theorem Step.losesNone (h : v.Step x v') (hok : v.Ok) (hv : v.Kept) {y : Mark}
    (hy : v'.world.log = y :: v.world.log) : LosesNone y v.world.log := by
  cases h with
  | @reply op z hc hz =>
    obtain ⟨rfl, -⟩ := List.cons.inj hy
    refine ⟨nofun, nofun, ?_⟩
    rintro S ⟨⟩
    rcases hz with ⟨e, he, hs⟩ | ⟨he, -⟩
    · obtain rfl : e = .breakpoint := by simpa using he.symm
      obtain ⟨mc, hctx⟩ := hok.found _ hs
      obtain ⟨⟨t, r⟩, ht⟩ := hv.record.mpr ⟨mc, hctx⟩
      cases r with
      | false => exact ⟨t, ht⟩
      | true => exact absurd ht (hv.window (Or.inr (Or.inl ⟨_, hs⟩)) t)
    · cases he
  | @server o w s h =>
    have hy : Mark.did .server o :: w.log = y :: v.world.log := hy
    obtain ⟨rfl, -⟩ := List.cons.inj hy
    exact h.losesNone hv
  | @app t o w p hw h =>
    have hy : Mark.did (.app t) o :: w.log = y :: v.world.log := hy
    obtain ⟨rfl, -⟩ := List.cons.inj hy
    exact h.losesNone hv
  | unload => simp at hy
  | call | leave =>
    obtain ⟨rfl, -⟩ := List.cons.inj hy
    exact ⟨nofun, nofun, nofun⟩
  | @enter t op hw hop hp =>
    obtain rfl : Mark.started (.app t) op = y := by simpa using hy
    exact ⟨nofun, nofun, nofun⟩

end View

namespace Machine

variable {m : Machine}

/-- The thread `t` is in `suspend_helper`, before it stores `stopped_context`. -/
def Entered (m : Machine) (t : ℕ) : Prop :=
  (∃ flags, m.nextOp (.app t) = some (.drGetMcontext flags)) ∨
    ∃ c, m.nextOp (.app t) = some (.write (.stoppedContext (some c)))

/-- The thread `t` is in a clean call that can raise `e`. -/
def Raises (m : Machine) (t : ℕ) (e : EventType) : Prop :=
  ∃ op p, m.running (.app t) = some (op, p) ∧ op.event? = some e

/-- The step does not take a thread into `suspend_helper` while the record of a breakpoint is
stored there; nor while another thread is in it, ahead of its stores, if one of the two could
store over the other's breakpoint. -/
def EntersApart (m : Machine) (l : Label) : Prop :=
  ∀ t, m.act l = some (.app t, .drGetCurrentDrcontext) →
    (∀ mc, m.world.globals.stoppedContext ≠ some (.breakpoint, mc)) ∧
    ∀ u, u ≠ t → (m.Raises t .breakpoint → ¬m.Entered u ∧ ¬m.Storing u) ∧
      (m.Raises u .breakpoint → ¬m.Entered u)

theorem Tracks.raises {v : View} (h : m.Tracks v) {t : ℕ} {e : EventType}
    (ht : (v.phase t).event? = some e) : m.Raises t e := by
  obtain ⟨op, p, o, hr, -, -⟩ := h.raising (t := t) (by
    intro hp
    simp [hp, Phase.event?] at ht)
  exact ⟨op, p, hr, h.event t op p e hr ht⟩

theorem Tracks.entered {v : View} (h : m.Tracks v) {t : ℕ} {e : EventType}
    (ht : (v.phase t).entered? = some e) : m.Entered t ∧ m.Raises t e := by
  obtain ⟨op, p, o, hr, ho, hall⟩ := h.raising (t := t) (by
    intro hp
    simp [hp, Phase.entered?] at ht)
  have hev : (v.phase t).event? = some e := by
    cases hp : v.phase t <;> simp_all [Phase.entered?, Phase.event?]
  refine ⟨?_, h.raises hev⟩
  generalize v.phase t = q at hall ht
  cases hall with
  | sample => exact Or.inl ⟨_, ho⟩
  | storeContext => exact Or.inr ⟨_, ho⟩
  | _ => cases ht

theorem Tracks.entered_or_storing {v : View} (h : m.Tracks v) {t : ℕ} {e : EventType}
    (ht : (v.phase t).storing? = some e) : m.Entered t ∨ m.Storing t := by
  cases hp : v.phase t with
  | begun e' => exact Or.inl (h.entered (by rw [hp]; rfl)).1
  | sampled e' => exact Or.inl (h.entered (by rw [hp]; rfl)).1
  | context e' => exact Or.inr (h.storing hp)
  | _ => simp [hp, Phase.storing?] at ht

/-- Where threads enter `suspend_helper` apart, the record of a breakpoint that has fired is
neither stored over nor cleared before a call returns it, and it is returned once. -/
theorem no_lost_stop (hm : m.ReachedBy .debug EntersApart) {newer older : List Mark} {x : Mark}
    (hl : m.world.log = newer ++ x :: older) : LosesNone x older := by
  have hview : ∃ v, m.Tracks v ∧ v.Ok ∧ v.Kept ∧ Throughout LosesNone v.world.log := by
    refine ReachedBy.view (C := View.EntersApart) hm ?_ ?_ ?_
    · rintro m l v htr hv hc a o hact t rfl rfl
      obtain ⟨hctx, hothers⟩ := hc t hact
      refine ⟨by rwa [htr.world], fun u hu => ⟨fun ht => ?_, fun hu' => ?_⟩⟩
      · by_contra hs
        obtain ⟨e, hs⟩ := Option.ne_none_iff_exists'.mp hs
        obtain ⟨hne, hns⟩ := (hothers u hu).1 (htr.raises ht)
        exact (htr.entered_or_storing hs).elim hne hns
      · obtain ⟨he, hr⟩ := htr.entered hu'
        exact (hothers u hu).2 hr he
    · exact fun modules => ⟨View.kept_boot modules, throughout_nil _⟩
    · rintro v v' x hok ⟨hk, ht⟩ hc hs
      exact ⟨hs.kept hok hk hc, hs.throughout ht fun y hy => hs.losesNone hok hk hy⟩
  obtain ⟨v, htr, -, -, ht⟩ := hview
  exact ht newer x older (by rw [htr.world, hl])

/-- The check of `EntersApart` for the only thread. -/
def entersApartAlone (t : ℕ) (m : Machine) (l : Label) : Bool :=
  m.act l ≠ some (.app t, .drGetCurrentDrcontext) ||
    match m.world.globals.stoppedContext with
    | some (.breakpoint, _) => false
    | _ => true

theorem entersApart_of_alone {t : ℕ} (m : Machine) (l : Label)
    (hidle : ∀ u, u ≠ t → m.running (.app u) = none) (hc : entersApartAlone t m l = true) :
    m.EntersApart l := by
  intro t' hact
  obtain rfl : t' = t := by
    by_contra hne
    obtain ⟨env, rfl⟩ := act_eq_some hact
    simp [act, nextOp, hidle t' hne] at hact
  refine ⟨fun mc hmc => by simp [entersApartAlone, hact, hmc] at hc, fun u hu => ?_⟩
  have hnone : ¬m.Entered u ∧ ¬m.Storing u := by
    constructor
    · rintro (⟨flags, h⟩ | ⟨c, h⟩) <;> simp [nextOp, hidle u hu] at h
    · rintro ⟨block, h⟩
      simp [nextOp, hidle u hu] at h
  exact ⟨fun _ => hnone, fun _ => hnone.1⟩

/-- The server adds a breakpoint at 16 that fires at its first hit, and resumes. -/
def breakpointAhead (S : EventTypes) : List Label :=
  startUp ++ [.start .server (.addBreakpoint (absBreakpoint 16 1))] ++ actions .server 4 ++
    [.finish .server] ++ resumes S ++
    [.start (.app 1) (.cleanCall (.updateFastforwardCount 16 16 20))]

/-- One thread hits the breakpoint, and the call returns it. -/
def breakpointStop : Machine :=
  afterAlone .debug [] 1 (entersApartAlone 1)
    (breakpointAhead {.breakpoint} ++ actions (.app 1) 10 ++ stops)

theorem no_lost_stop_breakpointStop :
    Returned .breakpoint breakpointStop.world.log ∧
      LosesNone (.ended .server (.executeUntilEvent {.breakpoint})
        (.returned (.event .breakpoint))) breakpointStop.world.log.tail := by
  have hm : breakpointStop.ReachedBy .debug EntersApart :=
    reachedBy_afterAlone entersApart_of_alone [] _
  have hl : breakpointStop.world.log = [] ++ .ended .server (.executeUntilEvent {.breakpoint})
      (.returned (.event .breakpoint)) :: breakpointStop.world.log.tail := rfl
  exact ⟨rfl, no_lost_stop hm hl⟩

/-- A thread hits the breakpoint, and before it signals another stores its own event. -/
def overwrittenStop : Machine :=
  after .debug [] (breakpointAhead {.breakpoint, .relevantBlock} ++ actions (.app 1) 8 ++
    [.start (.app 2) (.cleanCall (.relevantBlockCleanCall 32 36))] ++ actions (.app 2) 4)

/-- A breakpoint can fire without any call returning it. -/
theorem not_no_lost_stop :
    ¬∀ m : Machine, m.Reachable .debug → ∀ newer x older,
      m.world.log = newer ++ x :: older → LosesNone x older := by
  intro h
  have hlost := h overwrittenStop (reachable_after .debug [] _) []
    (.did (.app 2) (.write (.stoppedContext (some (.relevantBlock, ⟨drMcAll, fun _ => 0, 0⟩)))))
    overwrittenStop.world.log.tail rfl
  exact hlost.stores rfl 1 rfl

end Machine

end ConcreteEval
