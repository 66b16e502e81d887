import Mathlib.Logic.Function.Basic

/-!
# Programs over a signature of atomic actions

`Prog σ ε α` is a sequential program over the atomic actions of the signature `σ`:
it returns an `α`, stops early with an `ε` (an exception or a fault), or performs one
action and continues with the reply. Every tree is finite, so a program always ends
once its actions are answered.

A program has two readings. `Prog.exec` answers the actions one after the other from a
world, with nobody else acting in between, and leaves the program that remains where an
action cannot be answered (`exec_bind` runs a sequence in order). `Prog.Path` keeps only
the sequence of actions with their replies: whatever the other threads of a system do
between two actions, the program walks along one of its paths (`path_bind`).
-/

namespace ConcreteEval

/-- Atomic actions, each with the type of the replies to it. -/
structure Signature where
  Op : Type
  Reply : Op → Type

/-- Programs over `σ` that return an `α` or stop with an `ε`. -/
inductive Prog (σ : Signature) (ε α : Type) : Type
  | ret (a : α)
  | stop (e : ε)
  | act (o : σ.Op) (k : σ.Reply o → Prog σ ε α)

namespace Prog

variable {σ : Signature} {ε α β γ W : Type}

/-- Continue with `f` from the value `p` returns. -/
def bind : Prog σ ε α → (α → Prog σ ε β) → Prog σ ε β
  | .ret a, f => f a
  | .stop e, _ => .stop e
  | .act o k, f => .act o fun r => (k r).bind f

instance : Monad (Prog σ ε) where
  pure := .ret
  bind := bind

/-- The program that performs `o` and returns the reply. -/
def perform (o : σ.Op) : Prog σ ε (σ.Reply o) :=
  .act o .ret

@[simp] theorem pure_eq (a : α) : (pure a : Prog σ ε α) = .ret a :=
  rfl

@[simp] theorem bind_eq (p : Prog σ ε α) (f : α → Prog σ ε β) : p >>= f = p.bind f :=
  rfl

@[simp] theorem ret_bind (a : α) (f : α → Prog σ ε β) : (ret a : Prog σ ε α).bind f = f a :=
  rfl

@[simp] theorem stop_bind (e : ε) (f : α → Prog σ ε β) : (stop e : Prog σ ε α).bind f = .stop e :=
  rfl

@[simp] theorem act_bind (o : σ.Op) (k : σ.Reply o → Prog σ ε α) (f : α → Prog σ ε β) :
    (act o k).bind f = .act o fun r => (k r).bind f :=
  rfl

@[simp] theorem perform_bind (o : σ.Op) (f : σ.Reply o → Prog σ ε β) :
    (perform o : Prog σ ε _).bind f = .act o f :=
  rfl

@[simp] theorem bind_assoc (p : Prog σ ε α) (f : α → Prog σ ε β) (g : β → Prog σ ε γ) :
    (p.bind f).bind g = p.bind fun a => (f a).bind g := by
  induction p with
  | ret a => rfl
  | stop e => rfl
  | act o k ih =>
    simp only [act_bind]
    congr 1
    funext r
    exact ih r

theorem bind_ret (p : Prog σ ε α) : p.bind .ret = p := by
  induction p with
  | ret a => rfl
  | stop e => rfl
  | act o k ih =>
    rw [act_bind]
    congr 1
    funext r
    exact ih r

/-- The action `p` performs next, if it has one left. -/
def next? : Prog σ ε α → Option σ.Op
  | .act o _ => some o
  | _ => none

@[simp] theorem next?_act (o : σ.Op) (k : σ.Reply o → Prog σ ε α) : (act o k).next? = some o :=
  rfl

@[simp] theorem next?_ret (a : α) : (ret a : Prog σ ε α).next? = none :=
  rfl

@[simp] theorem next?_stop (e : ε) : (stop e : Prog σ ε α).next? = none :=
  rfl

/-! ## Running alone -/

/-- Run `p` from the world `w` with nobody else acting. `answer` gives the reply to an
action and the world after it, or `none` where the action has to wait; there the program
that remains is returned. -/
def exec (answer : (o : σ.Op) → W → Option (σ.Reply o × W)) :
    Prog σ ε α → W → Prog σ ε α × W
  | .ret a, w => (.ret a, w)
  | .stop e, w => (.stop e, w)
  | .act o k, w =>
    match answer o w with
    | some (r, w') => (k r).exec answer w'
    | none => (.act o k, w)

section Exec

variable (answer : (o : σ.Op) → W → Option (σ.Reply o × W))

@[simp] theorem exec_ret (a : α) (w : W) : (ret a : Prog σ ε α).exec answer w = (.ret a, w) :=
  rfl

@[simp] theorem exec_stop (e : ε) (w : W) : (stop e : Prog σ ε α).exec answer w = (.stop e, w) :=
  rfl

theorem exec_act (o : σ.Op) (k : σ.Reply o → Prog σ ε α) (w : W) :
    (act o k).exec answer w =
      match answer o w with
      | some (r, w') => (k r).exec answer w'
      | none => (.act o k, w) := by
  rw [exec]

theorem exec_act_of_some {o : σ.Op} {k : σ.Reply o → Prog σ ε α} {w w' : W} {r : σ.Reply o}
    (h : answer o w = some (r, w')) : (act o k).exec answer w = (k r).exec answer w' := by
  rw [exec_act, h]

/-- A sequence runs its first program, and its second from where the first ended. -/
theorem exec_bind (p : Prog σ ε α) (f : α → Prog σ ε β) (w : W) :
    (p.bind f).exec answer w =
      match p.exec answer w with
      | (.ret a, w') => (f a).exec answer w'
      | (.stop e, w') => (.stop e, w')
      | (.act o k, w') => (.act o fun r => (k r).bind f, w') := by
  induction p generalizing w with
  | ret a => rfl
  | stop e => rfl
  | act o k ih =>
    cases h : answer o w with
    | none => simp [exec_act, h]
    | some rw' =>
      obtain ⟨r, w'⟩ := rw'
      simp only [act_bind, exec_act, h]
      exact ih r w'

end Exec

/-! ## Paths -/

/-- An action together with the reply it got. -/
abbrev Event (σ : Signature) := (o : σ.Op) × σ.Reply o

/-- How a program ends: with a value, or early. -/
inductive Ending (ε α : Type)
  | returned (a : α)
  | stopped (e : ε)

/-- `p` can perform the actions of `τ`, getting those replies, and end with `x`. -/
def Path : Prog σ ε α → List (Event σ) → Ending ε α → Prop
  | .ret a, τ, x => τ = [] ∧ x = .returned a
  | .stop e, τ, x => τ = [] ∧ x = .stopped e
  | .act o k, τ, x => ∃ r τ', τ = ⟨o, r⟩ :: τ' ∧ (k r).Path τ' x

/-- A path through a sequence is a path through its first program, and, where that one
returns, a path through the second. -/
theorem path_bind {p : Prog σ ε α} {f : α → Prog σ ε β} {τ : List (Event σ)} {x : Ending ε β} :
    (p.bind f).Path τ x ↔
      (∃ a τ₁ τ₂, τ = τ₁ ++ τ₂ ∧ p.Path τ₁ (.returned a) ∧ (f a).Path τ₂ x) ∨
        ∃ e, x = .stopped e ∧ p.Path τ (.stopped e) := by
  induction p generalizing τ with
  | ret a =>
    simp only [ret_bind, Path, Ending.returned.injEq, reduceCtorEq, and_false, exists_false,
      or_false]
    constructor
    · intro h
      exact ⟨a, [], τ, rfl, ⟨rfl, rfl⟩, h⟩
    · rintro ⟨b, τ₁, τ₂, rfl, ⟨rfl, rfl⟩, h⟩
      exact h
  | stop e =>
    simp only [stop_bind, Path, reduceCtorEq, and_false, false_and, exists_false, false_or,
      Ending.stopped.injEq]
    constructor
    · rintro ⟨rfl, rfl⟩
      exact ⟨e, rfl, rfl, rfl⟩
    · rintro ⟨e', rfl, rfl, rfl⟩
      exact ⟨rfl, rfl⟩
  | act o k ih =>
    simp only [act_bind, Path]
    constructor
    · rintro ⟨r, τ', rfl, h⟩
      rcases (ih r).mp h with ⟨a, τ₁, τ₂, rfl, h₁, h₂⟩ | ⟨e, rfl, h₁⟩
      · exact Or.inl ⟨a, ⟨o, r⟩ :: τ₁, τ₂, rfl, ⟨r, τ₁, rfl, h₁⟩, h₂⟩
      · exact Or.inr ⟨e, rfl, r, τ', rfl, h₁⟩
    · rintro (⟨a, τ₁, τ₂, rfl, ⟨r, τ', rfl, h₁⟩, h₂⟩ | ⟨e, rfl, r, τ', rfl, h₁⟩)
      · exact ⟨r, τ' ++ τ₂, rfl, (ih r).mpr (Or.inl ⟨a, τ', τ₂, rfl, h₁, h₂⟩)⟩
      · exact ⟨r, τ', rfl, (ih r).mpr (Or.inr ⟨e, rfl, h₁⟩)⟩

/-- The actions `p` performs when it runs alone, with their replies. -/
def trace (answer : (o : σ.Op) → W → Option (σ.Reply o × W)) :
    Prog σ ε α → W → List (Event σ)
  | .ret _, _ => []
  | .stop _, _ => []
  | .act o k, w =>
    match answer o w with
    | some (r, w') => ⟨o, r⟩ :: (k r).trace answer w'
    | none => []

/-- A sequence whose first program returns performs the actions of both. -/
theorem trace_bind {answer : (o : σ.Op) → W → Option (σ.Reply o × W)} {p : Prog σ ε α}
    {f : α → Prog σ ε β} {a : α} {w w' : W} (h : p.exec answer w = (.ret a, w')) :
    (p.bind f).trace answer w = p.trace answer w ++ (f a).trace answer w' := by
  induction p generalizing w with
  | ret b =>
    obtain ⟨hb, rfl⟩ := Prod.mk.inj h
    obtain rfl : b = a := by injection hb
    rfl
  | stop e => cases h
  | act o k ih =>
    rw [exec_act] at h
    rw [act_bind, trace, trace]
    cases ho : answer o w with
    | none =>
      rw [ho] at h
      cases h
    | some rw' =>
      obtain ⟨r, w₁⟩ := rw'
      rw [ho] at h
      simp only [ih r h, List.cons_append]

/-- A sequence whose first program stops performs the actions of that one. -/
theorem trace_bind_stop {answer : (o : σ.Op) → W → Option (σ.Reply o × W)} {p : Prog σ ε α}
    {f : α → Prog σ ε β} {e : ε} {w w' : W} (h : p.exec answer w = (.stop e, w')) :
    (p.bind f).trace answer w = p.trace answer w := by
  induction p generalizing w with
  | ret b => cases h
  | stop e' => rfl
  | act o k ih =>
    rw [exec_act] at h
    rw [act_bind, trace, trace]
    cases ho : answer o w with
    | none => rfl
    | some rw' =>
      obtain ⟨r, w₁⟩ := rw'
      rw [ho] at h
      simp only [ih r h]

/-- Mapping what a program returns leaves its actions. -/
theorem trace_map {answer : (o : σ.Op) → W → Option (σ.Reply o × W)} {p : Prog σ ε α}
    (f : α → β) (w : W) : (p.bind fun a => .ret (f a)).trace answer w = p.trace answer w := by
  induction p generalizing w with
  | ret b => rfl
  | stop e => rfl
  | act o k ih =>
    rw [act_bind, trace, trace]
    cases answer o w with
    | none => rfl
    | some rw' => simp only [ih rw'.1]

/-- How the program has ended, if it has. -/
def ending? : Prog σ ε α → Option (Ending ε α)
  | .ret a => some (.returned a)
  | .stop e => some (.stopped e)
  | .act _ _ => none

/-- Running alone is a path. -/
theorem path_trace {answer : (o : σ.Op) → W → Option (σ.Reply o × W)} {p : Prog σ ε α} {w : W}
    {x : Ending ε α} (h : (p.exec answer w).1.ending? = some x) :
    p.Path (p.trace answer w) x := by
  induction p generalizing w with
  | ret a => exact ⟨rfl, (Option.some.inj h).symm⟩
  | stop e => exact ⟨rfl, (Option.some.inj h).symm⟩
  | act o k ih =>
    rw [exec_act] at h
    rw [trace]
    cases ha : answer o w with
    | none =>
      rw [ha] at h
      cases h
    | some rw' =>
      obtain ⟨r, w'⟩ := rw'
      rw [ha] at h
      exact ⟨r, _, rfl, ih r h⟩

/-! ## How a program ends -/

/-- The program can only return values that satisfy `ok`, and stop with what satisfies `ko`. -/
def Ends (ok : α → Prop) (ko : ε → Prop) : Prog σ ε α → Prop
  | .ret a => ok a
  | .stop e => ko e
  | .act _ k => ∀ r, (k r).Ends ok ko

/-- A sequence ends like its second program, from a value that the first returns, or stops like
the first. -/
theorem Ends.bind {P : α → Prop} {Q : β → Prop} {ko : ε → Prop} {p : Prog σ ε α}
    {f : α → Prog σ ε β} (hp : p.Ends P ko) (hf : ∀ a, P a → (f a).Ends Q ko) :
    (p.bind f).Ends Q ko := by
  induction p with
  | ret a => exact hf a hp
  | stop e => exact hp
  | act o k ih => exact fun r => ih r (hp r)

theorem Ends.mono {P Q : α → Prop} {ko ko' : ε → Prop} {p : Prog σ ε α} (hp : p.Ends P ko)
    (hPQ : ∀ a, P a → Q a) (hko : ∀ e, ko e → ko' e) : p.Ends Q ko' := by
  induction p with
  | ret a => exact hPQ a hp
  | stop e => exact hko e hp
  | act o k ih => exact fun r => ih r (hp r)

/-- Every value the program can return satisfies `P`. -/
abbrev Returns (P : α → Prop) (p : Prog σ ε α) : Prop :=
  p.Ends P fun _ => True

theorem ends_true (p : Prog σ ε α) : p.Ends (fun _ => True) fun _ => True := by
  induction p with
  | ret a => exact trivial
  | stop e => exact trivial
  | act o k ih => exact ih

/-- What a sequence returns, whatever its first program returned. -/
theorem returns_bind {Q : β → Prop} (p : Prog σ ε α) {f : α → Prog σ ε β}
    (hf : ∀ a, (f a).Returns Q) : (p.bind f).Returns Q :=
  p.ends_true.bind fun a _ => hf a

end Prog

end ConcreteEval
