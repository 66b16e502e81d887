import ConcreteEval.Critical
import ConcreteEval.Deferral
import ConcreteEval.History
import ConcreteEval.Holder
import ConcreteEval.Translation

/-!
# Operations one at a time

In the machine the operations of the server and of any number of application threads interleave
action by action. `Serial` are the runs, with their histories, whose turns have the effects that the
operations have at once, and whose operations end with answers to the tables of their turns.

Every run is such a run, and whenever the mutex is free the tables of the machine are those of its
history (`Machine.ReachedBy.serial`), as long as `executeUntilEvent` unlocks no mutex that it does
not have. What every operation keeps that takes effect at once is then kept by all of them together
(`Machine.ReachedBy.tables_invariant`).
-/

namespace ConcreteEval

namespace World

variable {w w' w₁ : World} {env : Env} {a c : Actor} {o : Op} {r : o.Reply} {t t' : Tables}
  {f : Option Tables} {l : Critical}

/-- The tables after an action. -/
theorem tables_answer (h : w.answer env a o = some (r, w₁)) :
    w₁.globals.tables = match o with
      | .write x => x.edit w.globals.tables
      | _ => w.globals.tables := by
  obtain rfl := answer_eq h
  cases o with
  | write x => exact Write.apply_tables _ _
  | _ => rfl

theorem tables_answer_of_not (h : w.answer env a o = some (r, w₁)) (ho : o.edits = false) :
    w₁.globals.tables = w.globals.tables := by
  rw [tables_answer h]
  cases o with
  | write x => exact Write.edit_of_not ho _
  | _ => rfl

/-- Where the thread `a` is in its section, the tables of the operations so far being `t`; `f` is
what its operation has taken effect on, if it has. -/
def At (w : World) (t : Tables) (f : Option Tables) (a : Actor) : Critical → Prop
  | .ahead => f = none ∧ (w.mutex = some a → w.globals.tables = t)
  | .locked => f = none ∧ w.mutex = some a ∧ w.globals.tables = t
  | .inside found now =>
    f = none ∧ w.mutex = some a ∧ found = t ∧ now = w.globals.tables
  | .past found => f = some found ∧ w.mutex ≠ some a

/-- A thread without the mutex sees nothing of the tables. -/
theorem At.away (h : w.At t f a l) (hw : w.mutex ≠ some a) (hw' : w'.mutex ≠ some a) :
    w'.At t' f a l := by
  cases l with
  | ahead => exact ⟨h.1, fun hm => absurd hm hw'⟩
  | locked => exact absurd h.2.1 hw
  | inside found now => exact absurd h.2.1 hw
  | past found => exact ⟨h.1, hw'⟩

theorem At.same (h : w.At t f a l) (hm : w'.mutex = w.mutex)
    (ht : w'.globals.tables = w.globals.tables) : w'.At t f a l := by
  cases l <;> simpa only [At, hm, ht] using h

section Act

variable {modules known : List Module} {op : Operation}

/-- What a thread does to its own place. -/
theorem At.act (h : w.At t f a l) (hallows : l.Allows modules known op o)
    (hne : o ≠ .drMutexUnlock) (ha : w.answer env a o = some (r, w₁))
    (hfree : w.mutex = none → w.globals.tables = t) :
    w₁.At t f a (l.next o r) := by
  have hstays : (l = .locked → o ≠ .read) → o ≠ .drMutexLock → o.edits = false →
      w₁.At t f a (l.next o r) := by
    intro hread hlock hedits
    rw [Critical.next_eq hread hlock hne hedits]
    exact h.same (mutex_answer_of_not ha hlock hne) (tables_answer_of_not ha hedits)
  cases l with
  | ahead =>
    by_cases hlock : o = .drMutexLock
    · subst hlock
      have hm : w.mutex = none := by
        simp only [answer] at ha
        split_ifs at ha with hm
        exact hm
      exact ⟨h.1, mutex_answer ha, (tables_answer ha).trans (hfree hm)⟩
    · exact hstays (by simp) hlock hallows.2
  | locked =>
    by_cases hread : o = .read
    · subst hread
      obtain ⟨rfl, rfl⟩ := Prod.mk.inj (Option.some.inj ha)
      exact ⟨h.1, h.2.1, h.2.2, rfl⟩
    · exact hstays (fun _ => hread) hallows.1 hallows.2.2
  | inside found now =>
    obtain ⟨hf, hm, rfl, rfl⟩ := h
    cases o with
    | write x => exact ⟨hf, (mutex_answer ha).trans hm, rfl, (tables_answer ha).symm⟩
    | drMutexLock => exact absurd rfl hallows.1
    | drMutexUnlock => exact absurd rfl hne
    | _ => exact hstays (by simp) (by simp) rfl
  | past found => exact hstays (by simp) hallows.1 hallows.2.1

/-- It has the mutex then, and nobody else had it, or it leaves the mutex and the tables. -/
theorem At.keeps (h : w.At t f a l) (hallows : l.Allows modules known op o)
    (hne : o ≠ .drMutexUnlock) (ha : w.answer env a o = some (r, w₁)) :
    w₁.mutex = some a ∧ (∀ c, c ≠ a → w.mutex ≠ some c) ∨
      w₁.mutex = w.mutex ∧ w₁.globals.tables = w.globals.tables := by
  by_cases hlock : o = .drMutexLock
  · subst hlock
    refine Or.inl ⟨mutex_answer ha, fun c _ => ?_⟩
    simp only [answer] at ha
    split_ifs at ha with hm
    simp [hm]
  · have hmutex := mutex_answer_of_not ha hlock hne
    by_cases hedits : o.edits = true
    · have hm : w.mutex = some a := by
        cases l with
        | ahead => cases hedits.symm.trans hallows.2
        | locked => exact h.2.1
        | inside found now => exact h.2.1
        | past found => cases hedits.symm.trans hallows.2.1
      refine Or.inl ⟨hmutex.trans hm, fun c hc => ?_⟩
      rw [hm]
      simpa using hc.symm
    · exact Or.inr ⟨hmutex, tables_answer_of_not ha (by simpa using hedits)⟩

end Act

end World

namespace Machine

/-- A run of the machine with its history, in which every operation that takes its turn has the
effect on the tables of those before it that it has at once. -/
inductive Serial (b : Build) : Machine → History → Prop
  | boot (modules : List Module) : Serial b (boot b modules) (.boot modules)
  | start {m m' h a op} (hm : Serial b m h) (hs : m.step b (.start a op) = some m') :
    Serial b m' (h.start a op m.world.modules)
  /-- A thread unlocks : its operation takes effect. -/
  | turn {m m' h a env op p} (hm : Serial b m h) (hs : m.step b (.action a env) = some m')
    (hrun : m.running a = some (op, p)) (hp : p.next? = some .drMutexUnlock)
    (heffect : op.Effect m.world.modules (h.known a) h.tables m'.world.globals.tables) :
    Serial b m' (h.turn a op m.world.modules m'.world.globals.tables)
  | act {m m' h a env} (hm : Serial b m h) (hs : m.step b (.action a env) = some m')
    (ho : m.nextOp a ≠ some .drMutexUnlock) : Serial b m' h
  /-- An operation ends : its result answers to what it took effect on, or is one that any tables
  have, if it took none. -/
  | finish {m m' h a op p x} (hm : Serial b m h) (hs : m.step b (.finish a) = some m')
    (hrun : m.running a = some (op, p)) (hx : endingOf a p = some x)
    (hanswer : ∀ t, h.found a = some t ∨ h.found a = none → op.Answer m.world.modules t x) :
    Serial b m' (h.finish a op m.world.modules x)
  | unload {m m' h M} (hm : Serial b m h) (hs : m.step b (.unload M) = some m') : Serial b m' h

/-- The server unlocks the mutex only where it has it. -/
def UnlocksOwn (m : Machine) (l : Label) : Prop :=
  m.act l = some (.server, .drMutexUnlock) → m.world.mutex = some .server

/-- Every thread is in its section as far as it says. -/
structure InSections (m : Machine) (h : History) : Prop where
  thread : ∀ a op p, m.running a = some (op, p) → ∃ l, m.world.At h.tables (h.found a) a l ∧
    ∀ modules known, (op.resolves = true → modules = m.world.modules) → h.known a ⊆ known →
      Keeps modules known op p (fun r l => op.Closes modules (.returned r) l) l
  takes : ∀ a op p, m.running a = some (op, p) →
    a.takes op = true ∨ a = .server ∧ op = .serverThread
  idle : ∀ a, m.running a = none → m.world.mutex = some a → m.world.globals.tables = h.tables
  free : m.world.mutex = none → m.world.globals.tables = h.tables
  loaded : ∀ a, m.world.modules ⊆ h.known a

variable {m m' : Machine} {l : Label} {h h' : History}

theorem action_modules {b : Build} {a : Actor} {env : Env}
    (hs : m.step b (.action a env) = some m') : m'.world.modules = m.world.modules := by
  obtain ⟨op, o, k, r, w', hrun, -, -⟩ := step_action hs
  obtain ⟨r, w, ha, rfl⟩ := step_act hrun hs
  rw [set_world, World.note_modules, World.modules_answer ha]

theorem inSections_boot (modules : List Module) :
    (boot .debug modules).InSections (.boot modules) where
  thread a op p hrun := by
    have hp : p = op.prog .debug := by
      simp only [boot] at hrun
      split_ifs at hrun
      obtain ⟨rfl, rfl⟩ := Prod.mk.inj (Option.some.inj hrun)
      rfl
    subst hp
    exact ⟨.ahead, ⟨rfl, by simp [boot]⟩, fun _ _ _ _ => keeps_prog .debug op⟩
  takes a op p hrun := by
    simp only [boot] at hrun
    split_ifs at hrun with ha
    obtain ⟨rfl, -⟩ := Prod.mk.inj (Option.some.inj hrun)
    exact Or.inr ⟨ha, rfl⟩
  idle _ _ hmutex := by cases hmutex
  free _ := rfl
  loaded _ := List.Subset.refl _

theorem InSections.isCallback (hin : m.InSections h) {u : ℕ} {op : Operation} {p : Dr Result}
    (hrun : m.running (.app u) = some (op, p)) : op.isCallback = true := by
  rcases hin.takes _ op p hrun with hop | ⟨happ, -⟩
  · exact hop
  · cases happ

/-- Only the server resolves addresses before its section, and the application is suspended then. -/
theorem InSections.suspended (hin : m.InSections h) (hm : m.Reachable .debug) {a : Actor}
    {op : Operation} {p : Dr Result} (hrun : m.running a = some (op, p))
    (hop : op.resolves = true) : m.world.suspended = true := by
  cases a with
  | app u =>
    have hcallback := hin.isCallback hrun
    cases op <;> first | (cases hcallback; done) | cases hop
  | server =>
    obtain ⟨v, htr, hv, -⟩ := hm.view
    have hheld : v.stage.Held := by
      have hof := hv.call
      rw [htr.call, hrun] at hof
      cases op <;> first | exact hof | cases hop
    have hs := (hv.suspended_of_not_awake hheld.not_awake).1
    rwa [htr.world] at hs

/-- A thread that moves, or starts or ends an operation, with the others where they are. -/
theorem InSections.moved (hin : m.InSections h) {a : Actor} {w : World}
    {x : Option (Operation × Dr Result)} (hfound : ∀ c, c ≠ a → h'.found c = h.found c)
    (hknown : ∀ c, c ≠ a → h.known c ⊆ h'.known c) (hloaded : ∀ c, w.modules ⊆ h'.known c)
    (hmodules : ∀ c op p, c ≠ a → m.running c = some (op, p) → op.resolves = true →
      w.modules = m.world.modules)
    (hothers : ∀ c, c ≠ a → (m.world.mutex ≠ some c ∧ w.mutex ≠ some c) ∨
      w.mutex = m.world.mutex ∧ w.globals.tables = m.world.globals.tables ∧ h'.tables = h.tables)
    (hthread : ∀ op p, x = some (op, p) → ∃ l, w.At h'.tables (h'.found a) a l ∧
      ∀ modules known, (op.resolves = true → modules = w.modules) → h'.known a ⊆ known →
        Keeps modules known op p (fun r l => op.Closes modules (.returned r) l) l)
    (htakes : ∀ op p, x = some (op, p) → a.takes op = true ∨ a = .server ∧ op = .serverThread)
    (hidle : x = none → w.mutex = some a → w.globals.tables = h'.tables)
    (hfree : w.mutex = none → w.globals.tables = h'.tables) : (m.set w a x).InSections h' where
  thread c op p hrun := by
    by_cases hc : c = a
    · subst hc
      rw [set_running_self] at hrun
      exact hthread op p hrun
    · rw [set_running_of_ne _ _ _ hc] at hrun
      obtain ⟨l, hat, hf⟩ := hin.thread c op p hrun
      refine ⟨l, ?_, fun modules known hmod hk =>
        hf modules known (fun hop => ?_) (List.Subset.trans (hknown c hc) hk)⟩
      · rw [hfound c hc]
        rcases hothers c hc with ⟨hw, hw'⟩ | ⟨hmutex, htables, hsame⟩
        · exact hat.away hw hw'
        · rw [hsame]
          exact hat.same hmutex htables
      · exact (hmod hop).trans (hmodules c op p hc hrun hop)
  takes c op p hrun := by
    by_cases hc : c = a
    · subst hc
      rw [set_running_self] at hrun
      exact htakes op p hrun
    · rw [set_running_of_ne _ _ _ hc] at hrun
      exact hin.takes c op p hrun
  idle c hrun hmutex := by
    by_cases hc : c = a
    · subst hc
      rw [set_running_self] at hrun
      exact hidle hrun hmutex
    · rw [set_running_of_ne _ _ _ hc] at hrun
      rcases hothers c hc with ⟨-, hw'⟩ | ⟨hm, ht, hsame⟩
      · exact absurd hmutex hw'
      · exact ht.trans ((hin.idle c hrun (hm ▸ hmutex)).trans hsame.symm)
  free := hfree
  loaded := hloaded

theorem InSections.start (hin : m.InSections h) (hm : m.Reachable .debug) {a : Actor}
    {op : Operation} (hs : m.step .debug (.start a op) = some m') :
    m'.InSections (h.start a op m.world.modules) := by
  obtain ⟨hrun, hcan, rfl⟩ := step_start hs
  have hloaded : ∀ c, m.world.modules ⊆ Function.update h.known a m.world.modules c := by
    intro c
    by_cases hc : c = a
    · rw [hc, Function.update_self]
      exact List.Subset.refl _
    · rw [Function.update_of_ne hc]
      exact hin.loaded c
  refine hin.moved (fun c hc => h.start_found_of_ne op _ hc)
    (fun c hc => h.known_subset_start op _ hc) (fun c => ?_) (fun c op' p hc hrun' hop => ?_)
    (fun c hc => Or.inr ⟨by simp, by simp, rfl⟩) ?_ ?_ nofun ?_
  · rw [World.note_modules, World.enter_modules]
    exact List.append_subset.mpr ⟨List.subset_append_left _ _,
      List.subset_append_of_subset_right _ (hloaded c)⟩
  · have hsusp := hin.suspended hm hrun' hop
    cases a with
    | server => rw [World.note_modules, (canStart_server hcan).2]
    | app u => cases hsusp.symm.trans (canStart_app hcan).2
  · intro op' p heq
    obtain ⟨rfl, rfl⟩ := Prod.mk.inj (Option.some.inj heq)
    refine ⟨.ahead, ⟨h.start_found_self op _, fun hmutex => ?_⟩, fun _ _ _ _ => keeps_prog _ _⟩
    simp only [World.note_mutex, World.enter_mutex, World.note_globals, World.enter_globals]
      at hmutex ⊢
    exact hin.idle a hrun hmutex
  · intro op' p heq
    obtain ⟨rfl, -⟩ := Prod.mk.inj (Option.some.inj heq)
    cases a with
    | server => exact Or.inl (canStart_server hcan).1
    | app u => exact Or.inl (canStart_app hcan).1
  · intro hmutex
    rw [World.note_mutex, World.enter_mutex] at hmutex
    rw [World.note_globals, World.enter_globals]
    exact hin.free hmutex

theorem InSections.unload (hin : m.InSections h) (hm : m.Reachable .debug) {M : Module}
    (hs : m.step .debug (.unload M) = some m') : m'.InSections h := by
  obtain ⟨hsusp, rfl⟩ := step_unload hs
  refine ⟨fun a op p hrun => ?_, hin.takes, hin.idle, hin.free,
    fun c => List.Subset.trans List.erase_subset (hin.loaded c)⟩
  obtain ⟨l, hat, hf⟩ := hin.thread a op p hrun
  refine ⟨l, hat.same rfl rfl, fun modules known _ => hf modules known fun hop => ?_⟩
  cases hsusp.symm.trans (hin.suspended hm hrun hop)

/-- How an operation ends that is in its section so far. -/
theorem InSections.closes (hin : m.InSections h) {a : Actor} {op : Operation} {p : Dr Result}
    {x : Prog.Ending Halt Result} (hrun : m.running a = some (op, p)) (hx : endingOf a p = some x) :
    (m.world.mutex = some a → m.world.globals.tables = h.tables) ∧
      ∀ t, h.found a = some t ∨ h.found a = none → op.Answer m.world.modules t x := by
  obtain ⟨l, hat, hf⟩ := hin.thread a op p hrun
  have hcloses : op.Closes m.world.modules x l ∧ ∀ f, x ≠ .stopped (.fault f) := by
    have hf := hf m.world.modules (h.known a) (fun _ => rfl) (List.Subset.refl _)
    cases p with
    | ret r =>
      obtain rfl := Option.some.inj hx
      exact ⟨hf, nofun⟩
    | stop e =>
      cases e with
      | thrown e =>
        simp only [endingOf] at hx
        split_ifs at hx
        obtain rfl := Option.some.inj hx
        exact ⟨hf, by simp⟩
      | fault f => cases hx
    | act o k => cases hx
  obtain ⟨hcloses, hne⟩ := hcloses
  cases l with
  | ahead => exact ⟨hat.2, fun t _ => hcloses t⟩
  | locked =>
    obtain ⟨f, hf⟩ := hcloses
    exact absurd hf (hne f)
  | inside found now =>
    obtain ⟨f, hf⟩ | ⟨rfl, hanswer⟩ := hcloses
    · exact absurd hf (hne f)
    · exact ⟨fun _ => hat.2.2.2.symm.trans hat.2.2.1, fun t _ => hanswer t⟩
  | past found =>
    refine ⟨fun hmutex => absurd hmutex hat.2, fun t ht => ?_⟩
    rw [hat.1] at ht
    obtain rfl := Option.some.inj (ht.resolve_right nofun)
    exact hcloses

theorem InSections.finish (hin : m.InSections h) {a : Actor} {op : Operation} {p : Dr Result}
    {x : Prog.Ending Halt Result} (hrun : m.running a = some (op, p)) (hx : endingOf a p = some x)
    (hs : m.step .debug (.finish a) = some m') :
    m'.InSections (h.finish a op m.world.modules x) := by
  obtain ⟨op', p', x', hrun', hx', rfl⟩ := step_finish hs
  obtain ⟨rfl, rfl⟩ := Prod.mk.inj (Option.some.inj (hrun.symm.trans hrun'))
  refine hin.moved (fun c _ => by rw [History.finish_found]) (by simp) (by simpa using hin.loaded)
    (fun _ _ _ _ _ _ => rfl) (fun _ _ => Or.inr ⟨rfl, rfl, History.finish_tables ..⟩)
    nofun nofun (fun _ hmutex => ?_) fun hmutex => ?_
  · rw [History.finish_tables]
    exact (hin.closes hrun hx).1 hmutex
  · rw [History.finish_tables]
    exact hin.free hmutex

/-- A lookup by name finds a module that is loaded and has the name. -/
theorem found_of_answer {op : Operation} {known : List Module} {name : CxxString} {w w₁ : World}
    {env : Env} {a : Actor} {r : Option Module}
    (ha : w.answer env a (.drLookupModuleByName name) = some (r, w₁)) (hk : w.modules ⊆ known) :
    Found w.modules known op name r := by
  obtain ⟨rfl, -⟩ := Prod.mk.inj (Option.some.inj ha)
  exact ⟨fun _ => rfl, fun _ m hm =>
    ⟨hk (List.mem_of_find?_eq_some hm), by simpa using List.find?_some hm⟩⟩

/-- A thread that is about to unlock has made of the tables what its operation makes of them. -/
theorem InSections.unlocking (hin : m.InSections h) {a : Actor} {op : Operation}
    {k : Unit → Dr Result} (hrun : m.running a = some (op, .act .drMutexUnlock k))
    (hown : a = .server → m.world.mutex = some .server) :
    m.world.mutex = some a ∧ h.found a = none ∧
      op.Effect m.world.modules (h.known a) h.tables m.world.globals.tables ∧
      ∀ modules known, (op.resolves = true → modules = m.world.modules) → h.known a ⊆ known →
        Keeps modules known op (k ()) (fun r l => op.Closes modules (.returned r) l)
          (.past h.tables) := by
  obtain ⟨l, hat, hf⟩ := hin.thread a op _ hrun
  have hallows := (hf m.world.modules (h.known a) (fun _ => rfl) (List.Subset.refl _)).1.1
  cases l with
  | ahead => exact absurd rfl hallows.1
  | locked => exact absurd rfl hallows.2.1
  | inside found' now =>
    obtain ⟨hnone, hheld, rfl, rfl⟩ := hat
    exact ⟨hheld, hnone, hallows.2 rfl,
      fun modules known hmod hk => (hf modules known hmod hk).2 () trivial⟩
  | past found' =>
    -- Only `executeUntilEvent` gets here, where it does not have the mutex.
    obtain ⟨S, rfl⟩ := hallows.2.2 rfl
    have hserver : a = .server := by
      cases a with
      | server => rfl
      | app u => cases hin.isCallback hrun
    subst hserver
    exact absurd (hown rfl) hat.2

/-- A thread unlocks : its operation, which has had no turn yet, has it. -/
theorem InSections.unlock (hin : m.InSections h) {a : Actor} {env : Env} {op : Operation}
    {k : Unit → Dr Result} (hrun : m.running a = some (op, .act .drMutexUnlock k))
    (hown : UnlocksOwn m (.action a env)) (hs : m.step .debug (.action a env) = some m') :
    h.found a = none ∧
      op.Effect m.world.modules (h.known a) h.tables m'.world.globals.tables ∧
      m'.InSections (h.turn a op m.world.modules m'.world.globals.tables) := by
  have hserver : a = .server → m.world.mutex = some .server := by
    rintro rfl
    exact hown (act_action hrun env)
  obtain ⟨hheld, hnone, heffect, hrest⟩ := hin.unlocking hrun hserver
  obtain ⟨r, w₁, ha, rfl⟩ := step_act hrun hs
  have htables : w₁.globals.tables = m.world.globals.tables := World.tables_answer ha
  have hmutex : w₁.mutex = none := World.mutex_answer ha
  have hmodules : w₁.modules = m.world.modules := World.modules_answer ha
  refine ⟨hnone, ?_, ?_⟩
  · simpa only [set_world, World.note_globals, htables] using heffect
  · refine hin.moved (fun c hc => h.turn_found_of_ne op _ _ hc)
      (fun c _ => List.Subset.refl (h.known c)) ?_
      (fun c op' p _ _ _ => hmodules) (fun c hc => Or.inl ⟨?_, ?_⟩) ?_ ?_ nofun fun _ => rfl
    · rw [World.note_modules, hmodules]
      exact hin.loaded
    · rw [hheld]
      simpa using Ne.symm hc
    · rw [World.note_mutex, hmutex]
      nofun
    · intro op' p heq
      obtain ⟨rfl, rfl⟩ := Prod.mk.inj (Option.some.inj heq)
      refine ⟨.past h.tables, ⟨h.turn_found_self op _ _, ?_⟩, fun modules known hmod hk => ?_⟩
      · rw [World.note_mutex, hmutex]
        nofun
      · rw [World.note_modules, hmodules] at hmod
        exact hrest modules known hmod hk
    · intro op' p heq
      obtain ⟨rfl, -⟩ := Prod.mk.inj (Option.some.inj heq)
      exact hin.takes a _ _ hrun

/-- Any other action is one of a thread in its section, or has nothing to do with the tables. -/
theorem InSections.act (hin : m.InSections h) {a : Actor} {env : Env}
    (ho : m.nextOp a ≠ some .drMutexUnlock) (hs : m.step .debug (.action a env) = some m') :
    m'.InSections h := by
  obtain ⟨op, o, k, r, w', hrun, hp, rfl⟩ := step_action hs
  have hne : o ≠ .drMutexUnlock := by
    rintro rfl
    exact ho (by simp [nextOp, hrun])
  obtain ⟨-, w₁, ha, rfl⟩ := World.perform_eq_some hp
  have hmodules : w₁.modules = m.world.modules := World.modules_answer ha
  obtain ⟨l, hat, hf⟩ := hin.thread a op _ hrun
  have hallows := (hf m.world.modules (h.known a) (fun _ => rfl) (List.Subset.refl _)).1.1
  have hadm : ∀ modules known, (op.resolves = true → modules = m.world.modules) →
      h.known a ⊆ known → (critically modules known op).admits l o r := by
    intro modules known hmod hk
    cases o with
    | drLookupModuleByName name =>
      have hfound : Found m.world.modules known op name r :=
        found_of_answer ha (List.Subset.trans (hin.loaded a) hk)
      exact ⟨fun hop => by rw [hmod hop]; exact hfound.call hop, hfound.load⟩
    | _ => trivial
  have hkeeps := hat.keeps hallows hne ha
  refine hin.moved (fun _ _ => rfl) (fun _ _ => List.Subset.refl _)
    (by simpa [hmodules] using hin.loaded) (fun c op' p _ _ _ => hmodules) (fun c hc => ?_) ?_ ?_
    (fun hnone => by cases hnone) fun hnone => ?_
  · rcases hkeeps with ⟨hm, hw⟩ | ⟨hm, ht⟩
    · refine Or.inl ⟨hw c hc, ?_⟩
      rw [World.note_mutex, hm]
      simpa using hc.symm
    · exact Or.inr ⟨hm, ht, rfl⟩
  · intro op' p heq
    obtain ⟨rfl, rfl⟩ := Prod.mk.inj (Option.some.inj heq)
    refine ⟨l.next o r, (hat.act hallows hne ha hin.free).same rfl rfl,
      fun modules known hmod hk => ?_⟩
    rw [World.note_modules, hmodules] at hmod
    exact (hf modules known hmod hk).2 r (hadm modules known hmod hk)
  · intro op' p heq
    obtain ⟨rfl, -⟩ := Prod.mk.inj (Option.some.inj heq)
    exact hin.takes a _ _ hrun
  · rcases hkeeps with ⟨hm, -⟩ | ⟨hm, ht⟩
    · cases hm.symm.trans hnone
    · exact ht.trans (hin.free (hm.symm.trans hnone))

/-! ## Every run is serial -/

/-- One more step, with what it adds to the history. -/
theorem InSections.step (hin : m.InSections h) (hm : m.Reachable .debug) (hown : m.UnlocksOwn l)
    (hs : m.step .debug l = some m') : m'.InSections (h.next m l m') := by
  have hadds := h.adds_next hs
  generalize h.next m l m' = h' at hadds ⊢
  cases hadds with
  | start => exact hin.start hm hs
  | turn hrun => exact (hin.unlock hrun hown hs).2.2
  | act ho => exact hin.act ho hs
  | finish hrun hx => exact hin.finish hrun hx hs
  | unload => exact hin.unload hm hs

theorem Serial.step (hserial : Serial .debug m h) (hin : m.InSections h) (hown : m.UnlocksOwn l)
    (hs : m.step .debug l = some m') : Serial .debug m' (h.next m l m') := by
  have hadds := h.adds_next hs
  generalize h.next m l m' = h' at hadds ⊢
  cases hadds with
  | start => exact hserial.start hs
  | turn hrun => exact hserial.turn hs hrun rfl (hin.unlock hrun hown hs).2.1
  | act ho => exact hserial.act hs ho
  | finish hrun hx => exact hserial.finish hs hrun hx (hin.closes hrun hx).2
  | unload => exact hserial.unload hs

/-- The step has added the turn of an operation that a thread is in. -/
structure Takes (m : Machine) (h : History) (m' : Machine) (h' : History) (turn : Turn) : Prop where
  running : ∃ p, m.running turn.actor = some (turn.operation, p)
  turns : h'.turns = h.turns ++ [turn]
  found : turn.found = h.tables
  now : turn.now = h'.tables
  effect : turn.operation.Effect turn.modules turn.known turn.found turn.now
  mutex : m'.world.mutex = none

/-- The serial tables change only in turns. -/
theorem InSections.takes_next (hin : m.InSections h) (hown : m.UnlocksOwn l)
    (hs : m.step .debug l = some m') :
    (h.next m l m').turns = h.turns ∧ (h.next m l m').tables = h.tables ∨
      ∃ turn, Takes m h m' (h.next m l m') turn := by
  have hadds := h.adds_next hs
  generalize h.next m l m' = h' at hadds ⊢
  cases hadds with
  | turn hrun =>
    obtain ⟨-, heffect, -⟩ := hin.unlock hrun hown hs
    obtain ⟨r, w₁, ha, rfl⟩ := step_act hrun hs
    exact Or.inr ⟨_, ⟨_, hrun⟩, rfl, rfl, rfl, heffect, World.mutex_answer ha⟩
  | finish hrun hx => exact Or.inl ⟨History.finish_turns .., History.finish_tables ..⟩
  | start | act | unload => exact Or.inl ⟨rfl, rfl⟩

theorem RecordedBy.inSections (hm : m.RecordedBy .debug UnlocksOwn h) : m.InSections h :=
  hm.invariant inSections_boot fun _ _ _ _ hm hin hown hs =>
    hin.step hm.reachedBy.reachable hown hs

/-- What a thread is in after a step it was in before, or it has just started it. -/
theorem running_of_step {b : Build} {a : Actor} {op : Operation} {p : Dr Result}
    (hs : m.step b l = some m') (hrun : m'.running a = some (op, p)) :
    (∃ p', m.running a = some (op, p')) ∨ l = .start a op := by
  have hset : ∀ (c : Actor) (w : World) (z : Option (Operation × Dr Result)), m' = m.set w c z →
      (∃ p', m.running a = some (op, p')) ∨ a = c ∧ z = some (op, p) := by
    rintro c w z rfl
    by_cases hac : a = c
    · rw [hac, set_running_self] at hrun
      exact Or.inr ⟨hac, hrun⟩
    · rw [set_running_of_ne m w z hac] at hrun
      exact Or.inl ⟨p, hrun⟩
  cases l with
  | start c op' =>
    obtain ⟨-, -, hm'⟩ := step_start hs
    rcases hset _ _ _ hm' with hold | ⟨rfl, hz⟩
    · exact Or.inl hold
    · obtain ⟨rfl, -⟩ := Prod.mk.inj (Option.some.inj hz)
      exact Or.inr rfl
  | action c env =>
    obtain ⟨op', o, k, r, w', hrun', -, hm'⟩ := step_action hs
    rcases hset _ _ _ hm' with hold | ⟨rfl, hz⟩
    · exact Or.inl hold
    · obtain ⟨rfl, -⟩ := Prod.mk.inj (Option.some.inj hz)
      exact Or.inl ⟨_, hrun'⟩
  | finish c =>
    obtain ⟨op', p', x, -, -, hm'⟩ := step_finish hs
    rcases hset _ _ _ hm' with hold | ⟨-, hz⟩
    · exact Or.inl hold
    · cases hz
  | unload M =>
    obtain ⟨-, rfl⟩ := step_unload hs
    exact Or.inl ⟨p, hrun⟩

/-- What the empty tables satisfy and every operation keeps that takes effect at once, among those
that are started, the tables of the history satisfy. -/
theorem RecordedBy.tables_invariant {cond : Machine → Label → Prop} {I : Tables → Prop}
    {P : Operation → Prop} (hown : ∀ m l, cond m l → m.UnlocksOwn l)
    (hstart : ∀ m a op, cond m (.start a op) → P op) (hempty : I {})
    (heffect : ∀ op modules known found now, P op → op.Effect modules known found now →
      I found → I now)
    (hm : m.RecordedBy .debug cond h) : I h.tables := by
  suffices hall : I h.tables ∧ ∀ a op p, m.running a = some (op, p) → op = .serverThread ∨ P op from
    hall.1
  refine hm.invariant (I := fun m h => I h.tables ∧
      ∀ a op p, m.running a = some (op, p) → op = .serverThread ∨ P op)
    (fun modules => ⟨hempty, ?_⟩) ?_
  · intro a op p hrun
    simp only [boot] at hrun
    split_ifs at hrun
    obtain ⟨rfl, -⟩ := Prod.mk.inj (Option.some.inj hrun)
    exact Or.inl rfl
  · rintro m h l m' hm ⟨hI, hops⟩ hc hs
    constructor
    · rcases (hm.mono hown).inSections.takes_next (hown m l hc) hs with ⟨-, hsame⟩ | ⟨turn, hturn⟩
      · rwa [hsame]
      · obtain ⟨p, hrun⟩ := hturn.running
        have heff := hturn.effect
        rw [hturn.found, hturn.now] at heff
        rcases hops _ _ p hrun with hop | hP
        · rw [hop] at heff
          cases heff
        · exact heffect _ _ _ _ _ hP heff hI
    · intro a op p hrun
      rcases running_of_step hs hrun with ⟨p', hrun'⟩ | rfl
      · exact hops a op p' hrun'
      · exact Or.inr (hstart m a op hc)

/-- Every run in which the server unlocks only what it has is one of operations that take effect
one at a time, each where it unlocks, on what those before it have left, and that end with an answer
to what they took effect on. Where nobody has the mutex, the tables are those that they leave. -/
theorem ReachedBy.serial (hm : m.ReachedBy .debug UnlocksOwn) :
    ∃ h, Serial .debug m h ∧ (m.world.mutex = none → m.world.globals.tables = h.tables) := by
  obtain ⟨h, hm⟩ := hm.exists_recorded
  refine ⟨h, ?_, hm.inSections.free⟩
  exact hm.invariant Serial.boot fun _ _ _ _ hm hserial hown hs =>
    hserial.step hm.inSections hown hs

/-- The check of `UnlocksOwn`. -/
def unlocksOwnChecked (m : Machine) (l : Label) : Bool :=
  m.act l ≠ some (.server, .drMutexUnlock) || m.world.mutex = some .server

theorem unlocksOwn_of_checked (m : Machine) (l : Label) (hc : unlocksOwnChecked m l = true) :
    m.UnlocksOwn l := by
  intro hact
  simpa [unlocksOwnChecked, hact] using hc

/-- A thread hits a breakpoint that has a hit to go. -/
def oneToGo : Machine :=
  afterAlone .debug [] 1 unlocksOwnChecked (countsAt 2 ++ hitsAt 4)

theorem serial_oneToGo : oneToGo.world.globals.breakpoints.find? 16 = some 1 ∧
    ∃ h, Serial .debug oneToGo h ∧
      (oneToGo.world.mutex = none → oneToGo.world.globals.tables = h.tables) :=
  ⟨rfl, ReachedBy.serial (reachedBy_afterAlone (fun m l _ => unlocksOwn_of_checked m l) [] _)⟩

/-- A thread that is about to edit the breakpoints has the mutex, and nobody else does. -/
theorem ReachedBy.edits_locked (hm : m.ReachedBy .debug UnlocksOwn) {a : Actor} {o : Op}
    (ho : m.nextOp a = some o) (hedits : o.edits = true) : m.world.mutex = some a := by
  obtain ⟨h, hm⟩ := hm.exists_recorded
  have hin := hm.inSections
  cases hrun : m.running a with
  | none => simp [nextOp, hrun] at ho
  | some r =>
    obtain ⟨op, p⟩ := r
    obtain ⟨l, hat, hf⟩ := hin.thread a op p hrun
    cases p with
    | act o' k =>
      obtain rfl : o' = o := by simpa [nextOp, hrun] using ho
      have hallows := (hf m.world.modules (h.known a) (fun _ => rfl) (List.Subset.refl _)).1.1
      cases l with
      | ahead => cases hedits.symm.trans hallows.2
      | locked => exact hat.2.1
      | inside found now => exact hat.2.1
      | past found => cases hedits.symm.trans hallows.2.1
    | _ => simp [nextOp, hrun] at ho

/-- A thread has looked the breakpoint up, and is about to count the hit. -/
def aboutToCount : Machine :=
  afterAlone .debug [] 1 unlocksOwnChecked (countsAt 2 ++
    [.start (.app 1) (.cleanCall (.updateFastforwardCount 16 16 20))] ++ actions (.app 1) 2)

theorem edits_locked_aboutToCount : (aboutToCount.nextOp (.app 1)).any Op.edits = true ∧
    aboutToCount.world.mutex = some (.app 1) :=
  ⟨rfl, ReachedBy.edits_locked
    (reachedBy_afterAlone (fun m l _ => unlocksOwn_of_checked m l) [] _) rfl rfl⟩

/-- What every operation that is started keeps, when it takes effect at once, holds of the tables
whenever nobody has the mutex. -/
theorem ReachedBy.tables_invariant {cond : Machine → Label → Prop} {I : Tables → Prop}
    {P : Operation → Prop} (hown : ∀ m l, cond m l → m.UnlocksOwn l)
    (hstart : ∀ m a op, cond m (.start a op) → P op) (hempty : I {})
    (heffect : ∀ op modules known found now, P op → op.Effect modules known found now →
      I found → I now)
    (hm : m.ReachedBy .debug cond) (hfree : m.world.mutex = none) : I m.world.globals.tables := by
  obtain ⟨h, hm⟩ := hm.exists_recorded
  rw [(hm.mono hown).inSections.free hfree]
  exact hm.tables_invariant hown hstart hempty heffect

end Machine

/-! ## Counts, in any interleaving -/

namespace Tables

/-- Every entry has a count in `C`. -/
def Counts (C : SizeT → Prop) (t : Tables) : Prop :=
  ∀ pl n, t.find? pl = some n → C n

variable {C : SizeT → Prop} {t found now : Tables} {n : SizeT}

theorem Counts.put (h : t.Counts C) (hn : C n) (pl : Place) : (t.put n pl).Counts C := by
  intro pl' c hc
  rw [find?_put] at hc
  split_ifs at hc with hsame
  · obtain rfl := Option.some.inj hc
    exact hn
  · exact h pl' c hc

theorem Counts.remove (h : t.Counts C) (pl : Place) : (t.remove pl).Counts C := by
  intro pl' c hc
  rw [find?_remove] at hc
  split_ifs at hc with hsame
  exact h pl' c hc

/-- The count of an entry is the one of what it was found at. -/
theorem Counts.of_mem (h : t.Counts C) {e : DeferredKey × SizeT} (he : e ∈ t.deferred.entries) :
    C e.2 :=
  h (.deferred e.1) e.2 (StdMap.find?_of_mem he)

theorem Counts.activates {known : List Module} {m : Module} {l : List (DeferredKey × SizeT)}
    {active active' : StdMap AppPc SizeT} (hact : Activates known m l active active')
    (hl : ∀ e ∈ l, C e.2) (h : ∀ addr n, active.find? addr = some n → C n) :
    ∀ addr n, active'.find? addr = some n → C n := by
  induction hact with
  | nil active => exact h
  | skip hp _ ih => exact ih (fun e he => hl e (List.mem_cons_of_mem _ he)) h
  | take hp hfound hres hspan _ ih =>
    refine ih (fun e he => hl e (List.mem_cons_of_mem _ he)) fun addr n hn => ?_
    rw [StdMap.find?_assign] at hn
    split_ifs at hn with hsame
    · obtain rfl := Option.some.inj hn
      exact hl _ List.mem_cons_self
    · exact h addr n hn

/-- Loading a module moves counts from one table to the other. -/
theorem Counts.loads {known : List Module} {m : Module} (h : found.Counts C)
    (hl : found.Loads known m now) : now.Counts C := by
  have hentries : ∀ e ∈ found.deferred.entries, C e.2 := fun e he => h.of_mem he
  have hactive : ∀ addr n, found.active.find? addr = some n → C n := fun addr =>
    h (.active addr)
  cases hl with
  | all hact =>
    intro pl n hn
    cases pl with
    | active addr => exact Counts.activates hact hentries hactive addr n hn
    | deferred ra =>
      obtain ⟨e, he, -, rfl⟩ := StdMap.exists_mem_of_find? hn
      exact hentries e (List.mem_of_mem_filter he)
  | some hsplit hact hp hfound hres =>
    intro pl n hn
    cases pl with
    | active addr =>
      refine Counts.activates hact (fun e he => hentries e ?_) hactive addr n hn
      rw [hsplit]
      exact List.mem_append_left _ he
    | deferred ra => exact h (.deferred ra) n hn

/-- No operation makes a count that was not asked for, but by counting down. -/
theorem Counts.effect {op : Operation} {modules known : List Module} (h : found.Counts C)
    (hdown : ∀ n, C n → n ≠ 1 → C (n - 1)) (hadd : ∀ bp, op = .addBreakpoint bp → C bp.1.count)
    (heffect : op.Effect modules known found now) : now.Counts C := by
  cases op with
  | addBreakpoint bp =>
    obtain rfl : now = found.serve modules (.addBreakpoint bp) := heffect
    cases hres : found.add modules bp with
    | error msg => rwa [serve_add_error hres]
    | ok now =>
      obtain ⟨pl, hpl⟩ := exists_place_of_add hres
      rw [serve_add hres, (add_eq_ok hpl hres).1]
      exact h.put (hadd bp rfl) pl
  | delBreakpoint bp =>
    obtain rfl : now = found.serve modules (.delBreakpoint bp) := heffect
    cases hres : found.delete modules bp with
    | error msg => rwa [serve_delete_error hres]
    | ok now =>
      obtain ⟨pl, hpl⟩ := exists_place_of_delete hres
      rw [serve_delete hres, ((delete_eq_ok hpl).mp hres).1]
      exact h.remove pl
  | cleanCall c =>
    cases c with
    | updateFastforwardCount addr start endPc =>
      obtain rfl : now = found.hit addr := heffect
      cases hn : found.active.find? addr with
      | none => rwa [hit_of_none hn]
      | some n =>
        by_cases hone : n = 1
        · subst hone
          rw [hit_of_one hn]
          exact h.remove _
        · rw [hit_of_ne_one hn hone]
          exact h.put (hdown n (h (.active addr) n hn) hone) _
    | relevantBlockCleanCall start endPc => cases heffect
  | eventModuleLoaded m => exact h.loads heffect
  | serverThread => cases heffect
  | _ =>
    obtain rfl : now = found := heffect
    exact h

end Tables

namespace Machine

/-- The counts that are asked for are from 1 to `N`, and the server unlocks only what it has. -/
def AsksWithin (N : ℕ) (m : Machine) (l : Label) : Prop :=
  m.UnlocksOwn l ∧ ∀ a bp, l = .start a (.addBreakpoint bp) →
    1 ≤ bp.1.count.toNat ∧ bp.1.count.toNat ≤ N

/-- In every run in which the server unlocks only what it has and asks for counts from 1 to `N`, no
count is outside this range where nobody has the mutex, whatever else the threads do in between each
other's actions. In particular none has reached 0 or wrapped. -/
theorem ReachedBy.counts_within {N : ℕ} {m : Machine} (hm : m.ReachedBy .debug (AsksWithin N))
    (hfree : m.world.mutex = none) :
    m.world.globals.tables.Counts fun n => 1 ≤ n.toNat ∧ n.toNat ≤ N := by
  refine hm.tables_invariant (P := fun op => ∀ bp, op = .addBreakpoint bp →
      1 ≤ bp.1.count.toNat ∧ bp.1.count.toNat ≤ N) (fun m l h => h.1) ?_ nofun ?_ hfree
  · rintro m a op ⟨-, hasks⟩ bp rfl
    exact hasks a bp rfl
  · intro op modules known found now hP heffect h
    refine h.effect (fun n hn hone => ?_) hP heffect
    have hne : 1 < n.toNat := by bv_omega
    have hsub : (n - 1).toNat + 1 = n.toNat := by bv_omega
    omega

/-- The check of `AsksWithin`. -/
def asksWithinChecked (N : ℕ) (m : Machine) (l : Label) : Bool :=
  unlocksOwnChecked m l &&
    match l with
    | .start _ (.addBreakpoint bp) => 1 ≤ bp.1.count.toNat && bp.1.count.toNat ≤ N
    | _ => true

theorem asksWithin_of_checked {N : ℕ} (m : Machine) (l : Label)
    (hc : asksWithinChecked N m l = true) : m.AsksWithin N l := by
  unfold asksWithinChecked at hc
  rw [Bool.and_eq_true] at hc
  refine ⟨unlocksOwn_of_checked m l hc.1, ?_⟩
  rintro a bp rfl
  simpa using hc.2

/-- A breakpoint with a hit to go, where no count above 2 has been asked for. -/
def oneOfTwo : Machine :=
  afterAlone .debug [] 1 (asksWithinChecked 2) (countsAt 2 ++ hitsAt 4)

theorem counts_within_oneOfTwo :
    oneOfTwo.world.globals.tables.Counts fun n => 1 ≤ n.toNat ∧ n.toNat ≤ 2 :=
  ReachedBy.counts_within (reachedBy_afterAlone (fun m l _ => asksWithin_of_checked m l) [] _) rfl

end Machine

end ConcreteEval
