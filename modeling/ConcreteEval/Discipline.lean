import ConcreteEval.Prog

/-!
# Disciplines

A discipline is an automaton over the actions of a signature : in each local state it
says which actions a program may perform next, which replies the environment can give
to them, and the local state after each reply. Programs keep no program counter, so the
local state is where a proof records how far a program got.

`Prog.Follows` says that a program keeps to a discipline from a local state on, whatever
admitted replies it gets, and which local states it can end in. It is computed from the
program (`follows_bind` goes through a sequence), it is kept by every step (its
definition at `act`), and it bounds every path (`Discipline.follows_path`).
-/

namespace ConcreteEval

/-- An automaton over the actions of `σ` with local states `L`. -/
structure Discipline (σ : Signature) (L : Type) where
  /-- The actions allowed next. -/
  allows : L → σ.Op → Prop
  /-- The replies the environment can give. -/
  admits : L → (o : σ.Op) → σ.Reply o → Prop
  /-- The local state after a reply. -/
  next : L → (o : σ.Op) → σ.Reply o → L

namespace Prog

variable {σ : Signature} {ε α β L : Type} {D : Discipline σ L}

/-- From the local state `l`, `p` performs allowed actions only, and ends in a local
state that satisfies `ok` of the value returned, or `ko` of the reason it stopped. -/
def Follows (D : Discipline σ L) (ok : α → L → Prop) (ko : ε → L → Prop) :
    Prog σ ε α → L → Prop
  | .ret a, l => ok a l
  | .stop e, l => ko e l
  | .act o k, l => D.allows l o ∧ ∀ r, D.admits l o r → (k r).Follows D ok ko (D.next l o r)

variable {ok ok' : α → L → Prop} {ko ko' : ε → L → Prop}

@[simp] theorem follows_ret (a : α) (l : L) :
    (ret a : Prog σ ε α).Follows D ok ko l ↔ ok a l :=
  Iff.rfl

@[simp] theorem follows_stop (e : ε) (l : L) :
    (stop e : Prog σ ε α).Follows D ok ko l ↔ ko e l :=
  Iff.rfl

theorem follows_act (o : σ.Op) (k : σ.Reply o → Prog σ ε α) (l : L) :
    (act o k).Follows D ok ko l ↔
      D.allows l o ∧ ∀ r, D.admits l o r → (k r).Follows D ok ko (D.next l o r) :=
  Iff.rfl

theorem follows_bind {p : Prog σ ε α} {f : α → Prog σ ε β} {ok : β → L → Prop} {l : L} :
    (p.bind f).Follows D ok ko l ↔ p.Follows D (fun a => (f a).Follows D ok ko) ko l := by
  induction p generalizing l with
  | ret a => rfl
  | stop e => rfl
  | act o k ih =>
    simp only [act_bind, follows_act]
    exact and_congr Iff.rfl (forall₂_congr fun r _ => ih r)

theorem Follows.mono {p : Prog σ ε α} {l : L} (h : p.Follows D ok ko l)
    (hok : ∀ a l, ok a l → ok' a l) (hko : ∀ e l, ko e l → ko' e l) :
    p.Follows D ok' ko' l := by
  induction p generalizing l with
  | ret a => exact hok a l h
  | stop e => exact hko e l h
  | act o k ih => exact ⟨h.1, fun r hr => ih r (h.2 r hr)⟩

/-- One action, then a program that follows the discipline from the local state it leads
to. -/
theorem Follows.step {o : σ.Op} {f : σ.Reply o → Prog σ ε α} {l : L} (h : D.allows l o)
    (hf : ∀ r, D.admits l o r → (f r).Follows D ok ko (D.next l o r)) :
    ((act o ret).bind f).Follows D ok ko l :=
  ⟨h, hf⟩

/-- The way a program ended is one of those `ok` and `ko` allow in the local state `l`. -/
def Ending.Meets (ok : α → L → Prop) (ko : ε → L → Prop) (l : L) : Ending ε α → Prop
  | .returned a => ok a l
  | .stopped e => ko e l

/-- A sequence follows a discipline if its first program ends only in local states from
which the second follows it. -/
theorem Follows.bind {p : Prog σ ε α} {f : α → Prog σ ε β} {okf : β → L → Prop} {l : L}
    (h : p.Follows D ok ko l) (hf : ∀ a l, ok a l → (f a).Follows D okf ko l) :
    (p.bind f).Follows D okf ko l :=
  follows_bind.mpr (h.mono hf fun _ _ h => h)

end Prog

namespace Discipline

variable {σ : Signature} {ε α L : Type}

/-- The local state after the actions of `τ`. -/
def after (D : Discipline σ L) : L → List (Prog.Event σ) → L
  | l, [] => l
  | l, ⟨o, r⟩ :: τ => D.after (D.next l o r) τ

/-- Every reply of `τ` is one the environment can give. -/
def Admits (D : Discipline σ L) : L → List (Prog.Event σ) → Prop
  | _, [] => True
  | l, ⟨o, r⟩ :: τ => D.admits l o r ∧ D.Admits (D.next l o r) τ

/-- Every action of `τ` is allowed where it is performed. -/
def Allows (D : Discipline σ L) : L → List (Prog.Event σ) → Prop
  | _, [] => True
  | l, ⟨o, r⟩ :: τ => D.allows l o ∧ D.Allows (D.next l o r) τ

variable {D : Discipline σ L}

/-- Along a path on which the environment gives admitted replies, a program that follows
the discipline performs allowed actions and ends where it should. -/
theorem follows_path {p : Prog σ ε α} {ok : α → L → Prop}
    {ko : ε → L → Prop} {l : L} {τ : List (Prog.Event σ)} {x : Prog.Ending ε α}
    (h : p.Follows D ok ko l) (hp : p.Path τ x) (ha : D.Admits l τ) :
    D.Allows l τ ∧ x.Meets ok ko (D.after l τ) := by
  induction p generalizing l τ with
  | ret a =>
    obtain ⟨rfl, rfl⟩ := hp
    exact ⟨trivial, h⟩
  | stop e =>
    obtain ⟨rfl, rfl⟩ := hp
    exact ⟨trivial, h⟩
  | act o k ih =>
    obtain ⟨r, τ', rfl, hp⟩ := hp
    obtain ⟨hall, hend⟩ := ih r (h.2 r ha.1) hp ha.2
    exact ⟨⟨h.1, hall⟩, hend⟩

end Discipline

end ConcreteEval
