import ConcreteEval.Suspension

/-!
# The stop record

`stopped_context` and `stopped_block` are stored one after the other, by threads that need
not hold the mutex. The log says by which run of which thread each was stored
(`lastContext`, `lastBlock`).

While no thread stores `stopped_context` between the two stores of another, and the
application is not suspended between the two stores of a thread (`StoresApart`), the two
are from one run wherever `executeUntilEvent` has returned (`one_stop`). Without that they
need not be (`not_one_stop`) : `relevant_block_clean_call` does not take the mutex.
-/

namespace ConcreteEval

/-- How many operations `a` has started. -/
def runs (a : Actor) : List Mark → ℕ
  | .started c _ :: l => if c = a then runs a l + 1 else runs a l
  | _ :: l => runs a l
  | [] => 0

/-- The value of `stopped_context`, with the run that stored it : the thread, and how many
operations it had started. -/
def lastContext : List Mark → Option ((Actor × ℕ) × EventType × Mcontext)
  | .did a (.write (.stoppedContext c)) :: l => c.map fun c => ((a, runs a l), c)
  | _ :: l => lastContext l
  | [] => none

/-- The value of `stopped_block`, with the run that stored it. -/
def lastBlock : List Mark → Option ((Actor × ℕ) × AppPc × AppPc)
  | .did a (.write (.stoppedBlock c)) :: l => c.map fun c => ((a, runs a l), c)
  | _ :: l => lastBlock l
  | [] => none

/-- The action does not assign to the stop record. -/
def Op.KeepsRecord (o : Op) : Prop :=
  (∀ c, o ≠ .write (.stoppedContext c)) ∧ ∀ c, o ≠ .write (.stoppedBlock c)

theorem Op.keepsRecord_of_isNeutral {o : Op} (h : o.isNeutral = true) : o.KeepsRecord := by
  constructor <;> (rintro c rfl; cases h)

theorem Write.keepsRecord_of_edits {x : Write} (h : x.edits = true) :
    (Op.write x).KeepsRecord := by
  constructor <;> (rintro c ⟨⟩; cases h)

theorem lastContext_did {a : Actor} {o : Op} {l : List Mark} (ho : o.KeepsRecord) :
    lastContext (.did a o :: l) = lastContext l := by
  cases o with
  | write x =>
    cases x with
    | stoppedContext c => exact absurd rfl (ho.1 c)
    | _ => rfl
  | _ => rfl

theorem lastBlock_did {a : Actor} {o : Op} {l : List Mark} (ho : o.KeepsRecord) :
    lastBlock (.did a o :: l) = lastBlock l := by
  cases o with
  | write x =>
    cases x with
    | stoppedBlock c => exact absurd rfl (ho.2 c)
    | _ => rfl
  | _ => rfl

/-- The last call of `executeUntilEvent` has returned `e`, and the application has not been
resumed since. -/
def Returned (e : EventType) (l : List Mark) : Prop :=
  lastEnd l = some (.returned (.event e))

theorem Operation.phase_ne_context {op : Operation} {e : EventType} :
    op.phase ≠ .context e := by
  cases op with
  | cleanCall c => cases c <;> nofun
  | _ => nofun

theorem Write.fires_ne_context {x : Write} {e : EventType} : x.fires ≠ .context e := by
  cases x <;> nofun

theorem Phase.look_eq_context {p : Phase} {g : Globals} {e : EventType} :
    p.look g = .context e ↔ p = .context e := by
  cases p with
  | fired e' =>
    unfold Phase.look
    cases g.stopEvents with
    | none => simp
    | some S => by_cases he : e' ∈ S <;> simp [he]
  | _ => rfl

namespace View

/-- The two parts of the stop record belong together, but for a thread that is between its
two stores. -/
structure Paired (v : View) : Prop where
  context : v.world.globals.stoppedContext = (lastContext v.world.log).map Prod.snd
  block : v.world.globals.stoppedBlock = (lastBlock v.world.log).map Prod.snd
  storing : ∀ t e, v.phase t = .context e →
    (lastContext v.world.log).map Prod.fst = some (.app t, runs (.app t) v.world.log) ∧
      ∀ u e', v.phase u = .context e' → u = t
  apart : (∀ t e, v.phase t ≠ .context e) → v.stage ≠ .clearing →
    (lastContext v.world.log).map Prod.fst = (lastBlock v.world.log).map Prod.fst
  clearing : v.stage = .clearing → lastContext v.world.log = none
  asleep : ¬v.stage.Awake → ∀ t e, v.phase t ≠ .context e

variable {v v' : View} {x : Option (Actor × Op)}

theorem paired_boot (modules : List Module) : (boot modules).Paired where
  context := rfl
  block := rfl
  storing t e h := by cases h
  apart _ _ := rfl
  clearing h := by cases h
  asleep _ t e h := by cases h

/-- A step that does not touch the stop record. -/
theorem Paired.keep (hv : v.Paired)
    (hc : v'.world.globals.stoppedContext = v.world.globals.stoppedContext)
    (hb : v'.world.globals.stoppedBlock = v.world.globals.stoppedBlock)
    (hlc : lastContext v'.world.log = lastContext v.world.log)
    (hlb : lastBlock v'.world.log = lastBlock v.world.log)
    (hr : ∀ t e, v.phase t = .context e →
      runs (.app t) v'.world.log = runs (.app t) v.world.log)
    (hp : ∀ t e, v'.phase t = .context e ↔ v.phase t = .context e)
    (hs : v'.stage = .clearing ↔ v.stage = .clearing)
    (ha : ¬v'.stage.Awake → ¬v.stage.Awake) : v'.Paired where
  context := by rw [hc, hlc, hv.context]
  block := by rw [hb, hlb, hv.block]
  storing t e h := by
    obtain ⟨hrun, hone⟩ := hv.storing t e ((hp t e).mp h)
    refine ⟨by rw [hlc, hrun, hr t e ((hp t e).mp h)], fun u e' hu => ?_⟩
    exact hone u e' ((hp u e').mp hu)
  apart h h' := by
    rw [hlc, hlb]
    exact hv.apart (fun t e ht => h t e ((hp t e).mpr ht)) (mt hs.mpr h')
  clearing h := by
    rw [hlc]
    exact hv.clearing (hs.mp h)
  asleep h t e ht := hv.asleep (ha h) t e ((hp t e).mp ht)

/-- An action of the server that does not touch the stop record. -/
theorem Paired.serverDid (hv : v.Paired) {o : Op} {w : World} {s : Stage} (ho : o.KeepsRecord)
    (hc : w.globals.stoppedContext = v.world.globals.stoppedContext)
    (hb : w.globals.stoppedBlock = v.world.globals.stoppedBlock) (hl : w.log = v.world.log)
    (hs : s = .clearing ↔ v.stage = .clearing) (ha : ¬s.Awake → ¬v.stage.Awake) :
    (v.serverDid o w s).Paired := by
  refine hv.keep hc hb ?_ ?_ (fun _ _ _ => ?_) (fun _ _ => Iff.rfl) hs ha
  · simpa [View.serverDid, hl] using lastContext_did ho
  · simpa [View.serverDid, hl] using lastBlock_did ho
  · simp [View.serverDid, hl, runs]

/-- An action of a thread that does not touch the stop record. -/
theorem Paired.appDid (hv : v.Paired) {t : ℕ} {o : Op} {w : World} {p : Phase}
    (ho : o.KeepsRecord) (hc : w.globals.stoppedContext = v.world.globals.stoppedContext)
    (hb : w.globals.stoppedBlock = v.world.globals.stoppedBlock) (hl : w.log = v.world.log)
    (hp : ∀ e, p = .context e ↔ v.phase t = .context e) : (v.appDid t o w p).Paired := by
  refine hv.keep hc hb ?_ ?_ (fun _ _ _ => ?_) (fun u e => ?_) Iff.rfl id
  · simpa [View.appDid, hl] using lastContext_did ho
  · simpa [View.appDid, hl] using lastBlock_did ho
  · simp [View.appDid, hl, runs]
  · by_cases hu : u = t
    · subst hu
      simpa [View.appDid] using hp e
    · simp [View.appDid, hu]

/-- No thread stores `stopped_context` between the two stores of another, and the
application is not suspended between the two stores of a thread. -/
def StoresApart (v : View) (a : Actor) (o : Op) : Prop :=
  (∀ t c, a = .app t → o = .write (.stoppedContext (some c)) →
    ∀ u e, u ≠ t → v.phase u ≠ .context e) ∧
  (a = .server → o = .drSuspendAllOtherThreads → ∀ u e, v.phase u ≠ .context e)

theorem ServerStep.paired {o : Op} {w : World} {s : Stage} (h : v.ServerStep o w s)
    (hv : v.Paired) (hcond : v.StoresApart .server o) : (v.serverDid o w s).Paired := by
  cases h with
  | neutral ho => exact hv.serverDid (Op.keepsRecord_of_isNeutral ho) rfl rfl rfl Iff.rfl id
  | read hs => exact hv.serverDid ⟨nofun, nofun⟩ rfl rfl rfl Iff.rfl id
  | lock hs hm =>
    refine hv.serverDid ⟨nofun, nofun⟩ rfl rfl rfl ?_ ?_ <;>
      rcases Stage.locks_eq_some hs with ⟨⟨l, hst⟩, rfl⟩ | ⟨hst, rfl⟩ <;>
        simp [hst, Stage.awake_iff]
  | unlock hs =>
    refine hv.serverDid ⟨nofun, nofun⟩ rfl rfl rfl ?_ ?_ <;>
      rcases Stage.unlocks_eq_some hs with ⟨hst, rfl⟩ | ⟨hst, rfl⟩ | ⟨hst, rfl⟩ <;>
        simp [hst, Stage.awake_iff]
  | edit hc hop hs hx =>
    exact hv.serverDid (Write.keepsRecord_of_edits hx) (Write.stoppedContext_of_edits hx _)
      (Write.stoppedBlock_of_edits hx _) rfl Iff.rfl id
  | clearContext hs =>
    have hnone := hv.asleep (by simp [hs, Stage.awake_iff])
    exact {
      context := rfl
      block := hv.block
      storing := fun t e h => absurd h (hnone t e)
      apart := fun _ h => absurd rfl h
      clearing := fun _ => rfl
      asleep := fun _ => hnone }
  | clearBlock hs =>
    have hnone := hv.asleep (by simp [hs, Stage.awake_iff])
    have hctx : lastContext v.world.log = none := hv.clearing hs
    exact {
      context := hv.context
      block := rfl
      storing := fun t e h => absurd h (hnone t e)
      apart := fun _ _ => by
        change (lastContext v.world.log).map Prod.fst = none
        rw [hctx]
        rfl
      clearing := nofun
      asleep := fun _ => hnone }
  | suspend hs =>
    have hnone := hcond.2 rfl rfl
    exact {
      context := hv.context
      block := hv.block
      storing := fun t e h => absurd h (hnone t e)
      apart := fun _ _ => hv.apart hnone (by simp [hs])
      clearing := nofun
      asleep := fun _ => hnone }
  | setEvents _ hs | resume hs | clearParams hs | wait hs | setParams hs | found _ hs
  | notFound _ hs =>
    refine hv.serverDid ⟨nofun, nofun⟩ rfl rfl rfl ?_ ?_ <;> simp [hs, Stage.awake_iff]

theorem AppStep.paired {t : ℕ} {o : Op} {w : World} {p : Phase} (h : v.AppStep t o w p)
    (hv : v.Paired) (ha : v.stage.Awake) (hcond : v.StoresApart (.app t) o) :
    (v.appDid t o w p).Paired := by
  have hclearing : v.stage ≠ .clearing := by
    rintro hs
    simp [hs, Stage.awake_iff] at ha
  cases h with
  | neutral hp ho =>
    exact hv.appDid (Op.keepsRecord_of_isNeutral ho) rfl rfl rfl (by simp [hp])
  | read => exact hv.appDid ⟨nofun, nofun⟩ rfl rfl rfl fun _ => Phase.look_eq_context
  | edit hp hx =>
    exact hv.appDid (Write.keepsRecord_of_edits hx) (Write.stoppedContext_of_edits hx _)
      (Write.stoppedBlock_of_edits hx _) rfl (by simp [hp, Write.fires_ne_context])
  | lock hp | unlock hp | begin hp | sample hp | signal hp =>
    exact hv.appDid ⟨nofun, nofun⟩ rfl rfl rfl (by simp [hp])
  | @storeContext e mc hp =>
    have hnone := hcond.1 t _ rfl rfl
    have hone : ∀ u e', Function.update v.phase t (.context e) u = .context e' → u = t := by
      intro u e' hu
      by_contra hne
      rw [Function.update_of_ne hne] at hu
      exact hnone u e' hne hu
    exact {
      context := rfl
      block := hv.block
      storing := fun u e' hu => by
        obtain rfl := hone u e' hu
        exact ⟨rfl, hone⟩
      apart := fun h => absurd (Function.update_self ..) (h t e)
      clearing := fun h => absurd h hclearing
      asleep := fun h => absurd ha h }
  | @storeBlock e block hp =>
    obtain ⟨hrun, hone⟩ := hv.storing t e hp
    have hnone : ∀ u e', Function.update v.phase t (.recorded e) u ≠ .context e' := by
      intro u e' hu
      by_cases hut : u = t
      · subst hut
        simp at hu
      · rw [Function.update_of_ne hut] at hu
        exact hut (hone u e' hu)
    exact {
      context := hv.context
      block := rfl
      storing := fun u e' hu => absurd hu (hnone u e')
      apart := fun _ _ => hrun
      clearing := fun h => absurd h hclearing
      asleep := fun _ => hnone }

theorem Step.paired (h : v.Step x v') (hv : v.Paired) (hok : v.Ok)
    (hcond : ∀ a o, x = some (a, o) → v.StoresApart a o) : v'.Paired := by
  cases h with
  | reply hc hr =>
    refine hv.keep rfl rfl rfl rfl (fun _ _ _ => rfl) (fun _ _ => Iff.rfl) ?_ fun _ => hr.not_awake
    obtain ⟨locked, hrest⟩ := v.stage.held_rest
    rcases hr.cases with ⟨l, hs⟩ | ⟨found, hs⟩ | hs <;> simp [hs, Stage.rest]
  | server h => exact h.paired hv (hcond _ _ rfl)
  | @enter t op hw hop hp =>
    refine hv.keep (by simp) (by simp) ?_ ?_ (fun u e hu => ?_) (fun u e => ?_) Iff.rfl id
    · simp [lastContext]
    · simp [lastBlock]
    · have hne : u ≠ t := by
        rintro rfl
        rw [hp] at hu
        cases hu
      simp [runs, hne.symm]
    · by_cases hu : u = t
      · subst hu
        simp [hp, Operation.phase_ne_context]
      · simp [hu]
  | app hw h => exact h.paired hv (hok.suspended.mp hw) (hcond _ _ rfl)
  | call | leave | unload =>
    exact hv.keep rfl rfl rfl rfl (fun _ _ _ => rfl) (fun _ _ => Iff.rfl) Iff.rfl id

/-- The stop record holds the event that was returned. -/
def Reported (v : View) : Prop :=
  ∀ e, Returned e v.world.log → ∃ mc, v.world.globals.stoppedContext = some (e, mc)

theorem Step.reported (h : v.Step x v') (hok : v.Ok) (hr : v.Resting) (hv : v.Reported) :
    v'.Reported := by
  intro e he
  by_cases hne : x = some (.server, .write (.stoppedContext none))
  · subst hne
    rw [Returned, h.log] at he
    cases he
  · rcases h.lastEnd hne with hl | ⟨S, y, -, hy, hl, hg, -⟩
    · have he' : Returned e v.world.log := hl.symm.trans he
      rw [(h.frame hok (hr ⟨_, he'⟩) hne).1]
      exact hv e he'
    · obtain rfl := Option.some.inj (hl.symm.trans he)
      rw [hg]
      rcases hy with ⟨e', he', hs⟩ | ⟨hy, -⟩
      · obtain rfl : e = e' := by simpa using he'
        exact hok.found e hs
      · cases hy

end View

namespace Machine

variable {m : Machine}

/-- The thread `t` is between its two stores. -/
def Storing (m : Machine) (t : ℕ) : Prop :=
  ∃ block, m.nextOp (.app t) = some (.write (.stoppedBlock (some block)))

/-- The step does not store `stopped_context` while another thread is between its two
stores, and does not suspend the application while a thread is. -/
def StoresApart (m : Machine) (l : Label) : Prop :=
  (∀ t c, m.act l = some (.app t, .write (.stoppedContext (some c))) →
    ∀ u, u ≠ t → ¬m.Storing u) ∧
  (m.act l = some (.server, .drSuspendAllOtherThreads) → ∀ u, ¬m.Storing u)

theorem Tracks.storing {v : View} (h : m.Tracks v) {t : ℕ} {e : EventType}
    (ht : v.phase t = .context e) : m.Storing t := by
  obtain ⟨op, p, o, -, ho, hall⟩ := h.raising (t := t) (by simp [ht])
  rw [ht] at hall
  cases hall with
  | storeBlock => exact ⟨_, ho⟩

/-- The event `e`, `stopped_context` and `stopped_block` are from one run of one thread. -/
def OneStop (m : Machine) (e : EventType) : Prop :=
  ∃ run mc block, lastContext m.world.log = some (run, e, mc) ∧
    lastBlock m.world.log = some (run, block) ∧
    m.world.globals.stoppedContext = some (e, mc) ∧
    m.world.globals.stoppedBlock = some block

theorem ReachedBy.paired (hm : m.ReachedBy .debug StoresApart) :
    ∃ v, m.Tracks v ∧ v.Ok ∧ v.Paired ∧ v.Resting ∧ v.Reported := by
  refine ReachedBy.view (C := View.StoresApart) hm ?_ ?_ ?_
  · intro m l v htr hv hc a o hact
    constructor
    · rintro t c rfl rfl u e hu hp
      exact hc.1 t c hact u hu (htr.storing hp)
    · rintro rfl rfl u e hp
      exact hc.2 hact u (htr.storing hp)
  · intro modules
    exact ⟨View.paired_boot modules, nofun, nofun⟩
  · rintro v v' x hok ⟨hp, hr, hrep⟩ hc hs
    exact ⟨hs.paired hp hok hc, hs.resting hr, hs.reported hok hr hrep⟩

/-- Where no thread's stores come between those of another, and the application is not
suspended between two stores, what `executeUntilEvent` returned is one stop. -/
theorem one_stop (hm : m.ReachedBy .debug StoresApart) {e : EventType}
    (h : Returned e m.world.log) : m.OneStop e := by
  obtain ⟨v, htr, hok, hp, hr, hrep⟩ := hm.paired
  unfold OneStop
  rw [← htr.world] at h ⊢
  have hs : v.stage.Paused := hr ⟨_, h⟩
  obtain ⟨mc, hctx⟩ := hrep e h
  obtain ⟨⟨run, c⟩, hlc, rfl⟩ := Option.map_eq_some_iff.mp (hp.context.symm.trans hctx)
  have hne : v.stage ≠ .clearing := by
    rcases hs with ⟨l, hs⟩ | hs | hs | hs <;> simp [hs]
  have hapart := hp.apart (hp.asleep hs.not_awake) hne
  rw [hlc] at hapart
  obtain ⟨⟨run', block⟩, hlb, hrun⟩ := Option.map_eq_some_iff.mp hapart.symm
  obtain rfl : run' = run := hrun
  exact ⟨_, mc, block, hlc, hlb, hctx, by rw [hp.block, hlb]; rfl⟩

/-- The check of `StoresApart` for the only thread. -/
def storesApartAlone (t : ℕ) (m : Machine) (l : Label) : Bool :=
  m.act l ≠ some (.server, .drSuspendAllOtherThreads) ||
    match m.nextOp (.app t) with
    | some (.write (.stoppedBlock _)) => false
    | _ => true

theorem storesApart_of_alone {t : ℕ} (m : Machine) (l : Label)
    (hidle : ∀ u, u ≠ t → m.running (.app u) = none) (hc : storesApartAlone t m l = true) :
    m.StoresApart l := by
  have hnone : ∀ u, u ≠ t → ¬m.Storing u := by
    rintro u hu ⟨block, h⟩
    simp [nextOp, hidle u hu] at h
  constructor
  · intro t' c hact u hu
    obtain rfl : t' = t := by
      by_contra hne
      obtain ⟨env, rfl⟩ := act_eq_some hact
      simp [act, nextOp, hidle t' hne] at hact
    exact hnone u hu
  · intro hact u
    by_cases hu : u = t
    · subst hu
      rintro ⟨block, h⟩
      simp [storesApartAlone, hact, h] at hc
    · exact hnone u hu

/-- One thread reaches a relevant block, and the server stops it there. -/
def relevantStop : Machine :=
  afterAlone .debug [] 1 (storesApartAlone 1) (startUp ++ resumes {.relevantBlock} ++
    [.start (.app 1) (.cleanCall (.relevantBlockCleanCall 16 20))] ++ actions (.app 1) 6 ++ stops)

theorem one_stop_relevantStop :
    Returned .relevantBlock relevantStop.world.log ∧ relevantStop.OneStop .relevantBlock :=
  ⟨rfl, one_stop (reachedBy_afterAlone storesApart_of_alone [] _) rfl⟩

/-- Two threads reach relevant blocks, and the server stops the second between its stores. -/
def tornStop : Machine :=
  after .debug [] (startUp ++ resumes {.relevantBlock} ++
    [.start (.app 1) (.cleanCall (.relevantBlockCleanCall 16 20)),
      .start (.app 2) (.cleanCall (.relevantBlockCleanCall 32 36))] ++
    actions (.app 1) 6 ++ actions (.app 2) 4 ++ stops)

/-- The record of a stop can come from two threads. -/
theorem not_one_stop :
    ¬∀ m : Machine, m.Reachable .debug → ∀ e, Returned e m.world.log → m.OneStop e := by
  intro h
  obtain ⟨run, mc, block, hc, hb, -⟩ :=
    h tornStop (reachable_after .debug [] _) .relevantBlock rfl
  have hc' : (lastContext tornStop.world.log).map Prod.fst = some (.app 2, 1) := rfl
  have hb' : (lastBlock tornStop.world.log).map Prod.fst = some (.app 1, 1) := rfl
  rw [hc] at hc'
  rw [hb] at hb'
  have hrun := Option.some.inj (hc'.symm.trans hb')
  simp at hrun

end Machine

end ConcreteEval
