import RetroScript.Proofs.Reports
import RetroScript.Proofs.Soundness

/-!
# Two machines in lockstep

Two machines that do the same with interpreters that agree: `together_step`. They may number scopes
differently and collect at different times. Only a dump that does not fit can part them.
-/

namespace RetroScript.Machine

open Syntax (Expr Command Item)

/-- Pending work without the number of a scope. -/
def Pending.core : Pending → Pending
  | .call callee _ => .call callee Arena.globalScope
  | pending => pending

theorem held_core (pending : Pending) : pending.core.held = pending.held := by
  cases pending <;> rfl

theorem heldBy_eq {work₁ work₂ : List Pending}
    (works : work₁.map Pending.core = work₂.map Pending.core) : heldBy work₁ = heldBy work₂ := by
  have same : ∀ work : List Pending, heldBy work = heldBy (work.map Pending.core) := fun work => by
    simp only [heldBy, List.flatMap_map, held_core]
  rw [same work₁, same work₂, works]

theorem core_of_not_call {pending : Pending} (notCall : ∀ callee scope, pending ≠ .call callee scope) :
    pending.core = pending := by
  unfold Pending.core
  split
  · exact absurd rfl (notCall _ _)
  · rfl

/-- The innermost work on both sides: none, a call of one function, or the same that is no call. -/
theorem works_cases {work₁ work₂ : List Pending}
    (works : work₁.map Pending.core = work₂.map Pending.core) :
    work₁ = [] ∧ work₂ = [] ∨
      (∃ callee scope₁ scope₂ rest₁ rest₂, work₁ = .call callee scope₁ :: rest₁ ∧
        work₂ = .call callee scope₂ :: rest₂ ∧ rest₁.map Pending.core = rest₂.map Pending.core) ∨
      ∃ pending rest₁ rest₂, work₁ = pending :: rest₁ ∧ work₂ = pending :: rest₂ ∧
        rest₁.map Pending.core = rest₂.map Pending.core ∧
        ∀ callee scope, pending ≠ .call callee scope := by
  cases work₁ with
  | nil => exact Or.inl ⟨rfl, List.map_eq_nil_iff.mp works.symm⟩
  | cons p₁ rest₁ =>
    cases work₂ with
    | nil => cases works
    | cons p₂ rest₂ =>
      obtain ⟨same, rests⟩ := List.cons.inj works
      refine Or.inr ?_
      rcases call_or_not p₁ with ⟨callee, scope₁, rfl⟩ | notCall₁
      · cases p₂ with
        | call callee₂ scope₂ =>
          obtain ⟨rfl, _⟩ := Pending.call.inj same
          exact Or.inl ⟨callee, scope₁, scope₂, rest₁, rest₂, rfl, rfl, rests⟩
        | _ => cases same
      · rw [core_of_not_call notCall₁] at same
        rcases call_or_not p₂ with ⟨callee, scope₂, rfl⟩ | notCall₂
        · exact absurd same (notCall₁ _ _)
        · rw [core_of_not_call notCall₂] at same
          subst same
          exact Or.inr ⟨p₁, rest₁, rest₂, rfl, rfl, rests, notCall₁⟩

/-- The same work, in interpreters that agree on all values in flight. -/
structure Alike (k : Nat) (s₁ s₂ : State) : Prop where
  control : s₁.control = s₂.control
  work : s₁.work.map Pending.core = s₂.work.map Pending.core
  agree : ∃ S V, s₁.it.Agree k S V s₂.it ∧ ∀ v ∈ s₁.held, V v

/-- A dump has just been refused, because of the limit of its sink. -/
def State.Refused (s : State) : Prop :=
  s.it.diag.limit ≠ none ∧ ∃ pos, s.control = .fail pos .refusedDump

section

variable {k : Nat} {S : ScopeId → ScopeId → Prop} {V : Value → Prop} {it₁ it₂ : Interpreter}
  {work₁ work₂ : List Pending} (agree : it₁.Agree k S V it₂)
  (works : work₁.map Pending.core = work₂.map Pending.core) (held : ∀ v ∈ heldBy work₁, V v)

include agree works held

variable (wellFormed₁ : it₁.arena.WellFormed) (wellFormed₂ : it₂.arena.WellFormed)

include wellFormed₁ wellFormed₂

omit agree works held wellFormed₁ wellFormed₂ in
theorem invoke_builtin (it : Interpreter) {name : String} {b : Builtin}
    (found : Builtin.ofName? name = some b) (pos : Position) (args : List Value) (work : List Pending) :
    invoke it pos name args work = giveOrFail (b.call it args).2 pos (b.call it args).1 work := by
  unfold invoke giveOrFail
  rw [found]
  dsimp only
  generalize b.call it args = answer
  obtain ⟨result, after⟩ := answer
  cases result <;> rfl

end

/-- A control that ends the innermost call, if that is the innermost work. -/
def Control.Ends : Control → Prop
  | .give _ | .finish _ | .fail _ _ => True
  | _ => False

theorem Alike.outcome? {k : Nat} {s₁ s₂ : State} (alike : Alike k s₁ s₂) : s₁.outcome? = s₂.outcome? := by
  obtain ⟨it₁, control, work₁⟩ := s₁
  obtain ⟨it₂, _, work₂⟩ := s₂
  obtain ⟨rfl, works, _⟩ := alike
  rcases works_cases works with ⟨none₁, none₂⟩ | ⟨_, _, _, _, _, some₁, some₂, _⟩ |
    ⟨_, _, _, some₁, some₂, _, _⟩
  · replace none₁ : work₁ = [] := none₁
    replace none₂ : work₂ = [] := none₂
    rw [none₁, none₂]
    rfl
  · replace some₁ : work₁ = _ := some₁
    replace some₂ : work₂ = _ := some₂
    rw [some₁, some₂]
    cases control <;> rfl
  · replace some₁ : work₁ = _ := some₁
    replace some₂ : work₂ = _ := some₂
    rw [some₁, some₂]
    cases control <;> rfl

/-! ### Refused dumps -/

theorem run_of_running {s : State} (running : s.outcome? = none) (n : Nat) :
    run (n + 1) s = run n (step s) := by
  rw [run, running]

theorem run_mono {n m : Nat} (le : n ≤ m) {s : State} {o : Except Error Value × Interpreter}
    (ran : run n s = some o) : run m s = some o := by
  induction n generalizing m s with
  | zero => cases ran
  | succ n ih =>
    obtain ⟨m, rfl⟩ := Nat.exists_eq_add_of_le' le
    show run (m + n + 1) s = some o
    unfold run at ran ⊢
    split at ran
    · exact ran
    · exact ih (Nat.le_add_left n m) ran

/-- A fault ends a run, and nothing is written on the way out. -/
theorem run_fail (it : Interpreter) (pos : Position) (fault : Fault) (work : List Pending) :
    ∃ n last, run n ⟨it, .fail pos fault, work⟩ = some (.error (.eval pos fault), last) ∧
      last.out = it.out ∧ last.diag = it.diag := by
  induction work generalizing it with
  | nil => exact ⟨1, it, rfl, rfl, rfl⟩
  | cons pending work ih =>
    have passed : ∃ it', step ⟨it, .fail pos fault, pending :: work⟩ = ⟨it', .fail pos fault, work⟩ ∧
        it'.out = it.out ∧ it'.diag = it.diag := by
      cases pending with
      | call callee scope =>
        refine ⟨exit it callee scope none work, rfl, ?_⟩
        unfold exit
        dsimp only
        split <;> exact ⟨rfl, rfl⟩
      | _ => exact ⟨it, rfl, rfl, rfl⟩
    obtain ⟨it', next, out, diag⟩ := passed
    obtain ⟨n, last, ran, outs, diags⟩ := ih it'
    refine ⟨n + 1, last, ?_, outs.trans out, diags.trans diag⟩
    rw [run_of_running rfl, next]
    exact ran

/-- A run that ends because a dump does not fit. -/
def EndsRefused (s : State) : Prop :=
  ∃ n pos last, run n s = some (.error (.eval pos .refusedDump), last)

theorem State.Refused.ends {s : State} (refused : s.Refused) : EndsRefused s := by
  obtain ⟨it, control, work⟩ := s
  obtain ⟨_, pos, failed⟩ := refused
  obtain ⟨n, last, ran, _⟩ := run_fail it pos .refusedDump work
  replace failed : control = .fail pos .refusedDump := failed
  exact ⟨n, pos, last, failed ▸ ran⟩

end RetroScript.Machine
