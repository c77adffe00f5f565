import RetroScript.Proofs.Places
import RetroScript.Proofs.Remarks

/-!
# Errors point into the source

All code that a machine holds comes from the program it has loaded, so whatever fails, fails at the place
of a token: `error_in_source`. Loading has one complaint without a place, about the main function.
-/

namespace RetroScript

open Syntax (PlacedExprs PlacedEntries PlacedGroups PlacedBlock PlacedItems)

/-- The bodies of all functions have their places in `P`. -/
def Interpreter.CodePlaced (P : Position → Prop) (it : Interpreter) : Prop :=
  ∀ ref, PlacedBlock P (it.heap.closure ref).body

namespace Interpreter.CodePlaced

variable {P : Position → Prop} {it it' : Interpreter}

theorem transfer (code : it.CodePlaced P) (same : it'.heap.closures = it.heap.closures) : it'.CodePlaced P := by
  intro ref
  have found : it'.heap.closure ref = it.heap.closure ref := by rw [Heap.closure, same, Heap.closure]
  rw [found]
  exact code ref

theorem makeClosure (code : it.CodePlaced P) {name : String} {params : List String}
    {body : List Syntax.Command} (placed : PlacedBlock P body) :
    (it.makeClosure name params body).2.CodePlaced P := by
  intro ref
  show PlacedBlock P ((it.heap.newClosure ⟨name, params, body, it.active⟩).2.closure ref).body
  rw [Heap.closure_newClosure]
  split
  · exact placed
  · exact code ref

theorem define (code : it.CodePlaced P) {name : String} {params : List String} {body : List Syntax.Command}
    (placed : PlacedBlock P body) : (it.define name params body).CodePlaced P :=
  (code.makeClosure placed).transfer rfl

theorem makeLambda (code : it.CodePlaced P) {params : List String} {body : List Syntax.Command}
    (placed : PlacedBlock P body) : (it.makeLambda params body).2.CodePlaced P :=
  (code.makeClosure placed).transfer rfl

end Interpreter.CodePlaced

theorem Heap.closures_put (h : Heap) (p : Heap.Place) (v : Value) : (h.put p v).closures = h.closures := by
  cases p <;> rfl

theorem Heap.closures_erase (h : Heap) (p : Heap.Place) : (h.erase p).closures = h.closures := by
  cases p <;> rfl

namespace Machine

open Syntax (Expr Command Item)

/-! ### Machines whose code is placed -/

def Use.Placed (P : Position → Prop) : Use → Prop
  | .array => True
  | .invoke pos _ more | .apply pos _ more => P pos ∧ PlacedGroups P more

/-- Pending work above other work. While a program is loaded (`loads`), its functions wait below all other
work. -/
def Pending.Placed (P : Position → Prop) (loads : Prop) (below : List Pending) : Pending → Prop
  | .operand pos _ right => P pos ∧ right.Placed P
  | .operate pos _ _ => P pos
  | .subscript pos key => P pos ∧ key.Placed P
  | .select pos _ => P pos
  | .values _ rest use => PlacedExprs P rest ∧ use.Placed P
  | .entries _ _ rest => PlacedEntries P rest
  | .groups pos more => P pos ∧ PlacedGroups P more
  | .assign pos _ indexes => P pos ∧ PlacedExprs P indexes
  | .reach pos _ rest _ => P pos ∧ PlacedExprs P rest
  | .branch yes no => PlacedBlock P yes ∧ PlacedBlock P no
  | .test condition body | .again condition body => condition.Placed P ∧ PlacedBlock P body
  | .commands rest => PlacedBlock P rest
  | .items rest => PlacedItems P rest
  | .functions all => loads ∧ below = [] ∧ PlacedItems P all
  | .discard | .result | .call _ _ | .constant _ => True

def PlacedWork (P : Position → Prop) (loads : Prop) : List Pending → Prop
  | [] => True
  | pending :: work => pending.Placed P loads work ∧ PlacedWork P loads work

/-- The complaint of loading about the main function. -/
def Complaint (it : Interpreter) (pos : Position) (fault : Fault) : Prop :=
  pos = .none ∧ mainFault? it = some fault

def Control.Placed (P : Position → Prop) (loads : Prop) (it : Interpreter) (work : List Pending) :
    Control → Prop
  | .load items => PlacedItems P items
  | .eval e => e.Placed P
  | .exec commands => PlacedBlock P commands
  | .fail pos fault => P pos ∨ loads ∧ work = [] ∧ Complaint it pos fault
  | .give _ | .finish _ | .stop _ => True

structure State.Placed (P : Position → Prop) (loads : Prop) (s : State) : Prop where
  code : s.it.CodePlaced P
  control : s.control.Placed P loads s.it s.work
  work : PlacedWork P loads s.work

/-! ### Steps -/

section

variable {P : Position → Prop} {loads : Prop} {it : Interpreter} {work : List Pending}
  (code : it.CodePlaced P) (waits : PlacedWork P loads work)

include code waits

theorem placed_giveOrFail {pos : Position} (place : P pos) (r : Except Fault Value) :
    (giveOrFail it pos r work).Placed P loads := by
  cases r with
  | ok v => exact ⟨code, trivial, waits⟩
  | error fault => exact ⟨code, Or.inl place, waits⟩

theorem placed_changeOrFail {pos : Position} (place : P pos) (r : Except Fault Heap.Place)
    {change : Heap → Heap.Place → Heap} (spares : ∀ h p, (change h p).closures = h.closures) :
    (changeOrFail it pos r change work).Placed P loads := by
  cases r with
  | ok p => exact ⟨code.transfer (spares _ p), trivial, waits⟩
  | error fault => exact ⟨code, Or.inl place, waits⟩

/-- A call has to have a place only if it is refused for its arguments. -/
theorem placed_enter {pos : Position} {ref : Nat} {args : List Value}
    (place : P pos ∨ args.length = (it.heap.closure ref).params.length) :
    (enter it pos ref args work).Placed P loads := by
  unfold enter
  dsimp only
  split
  · exact ⟨code, trivial, waits⟩
  · split
    · next mismatch => exact ⟨code, Or.inl (place.resolve_right mismatch), waits⟩
    · split
      · exact ⟨code, trivial, waits⟩
      · exact ⟨code, code ref, trivial, waits⟩

theorem placed_invoke {pos : Position} (place : P pos) (name : String) (args : List Value) :
    (invoke it pos name args work).Placed P loads := by
  cases found : Builtin.ofName? name with
  | some b =>
    have after : (b.call it args).2.CodePlaced P := code.transfer (Builtin.answers_call it b args).closures
    rw [invoke_builtin it found]
    exact placed_giveOrFail after waits place _
  | none =>
    unfold invoke
    rw [found]
    dsimp only
    split
    · exact placed_enter code waits (Or.inl place)
    · exact ⟨code, Or.inl place, waits⟩

theorem placed_complete (values : List Value) {use : Use} (placed : use.Placed P) :
    (complete it values work use).Placed P loads := by
  cases use with
  | array => exact ⟨code.transfer rfl, trivial, waits⟩
  | invoke pos name more =>
    have above : PlacedWork P loads (.groups pos more :: work) := ⟨placed, waits⟩
    exact placed_invoke code above placed.1 name values
  | apply pos callee more =>
    have above : PlacedWork P loads (.groups pos more :: work) := ⟨placed, waits⟩
    cases callee with
    | closure ref => exact placed_enter code above (Or.inl placed.1)
    | _ => exact ⟨code, Or.inl placed.1, waits⟩

theorem placed_gather (done : List Value) {rest : List Expr} (placed : PlacedExprs P rest) {use : Use}
    (then_ : use.Placed P) : (gather it done rest use work).Placed P loads := by
  cases rest with
  | nil => exact placed_complete code waits done.reverse then_
  | cons e es => exact ⟨code, placed.1, ⟨placed.2, then_⟩, waits⟩

theorem placed_gatherEntries (done : Dict Value) {rest : List (String × Expr)} (placed : PlacedEntries P rest) :
    (gatherEntries it done rest work).Placed P loads := by
  cases rest with
  | nil => exact ⟨code.transfer rfl, trivial, waits⟩
  | cons entry es => exact ⟨code, placed.1, placed.2, waits⟩

theorem placed_reachInto {pos : Position} (place : P pos) (name : String) {key : Expr} (first : key.Placed P)
    {rest : List Expr} (others : PlacedExprs P rest) (touch : Touch) :
    (reachInto it pos name key rest touch work).Placed P loads := by
  unfold reachInto
  split
  · exact ⟨code, first, ⟨place, others⟩, waits⟩
  · exact ⟨code, Or.inl place, waits⟩

theorem placed_reachOn {pos : Position} (place : P pos) (container key : Value) {rest : List Expr}
    (placed : PlacedExprs P rest) (touch : Touch) :
    (reachOn it pos container key rest touch work).Placed P loads := by
  cases rest with
  | cons e es =>
    simp only [reachOn]
    split
    · exact ⟨code, placed.1, ⟨place, placed.2⟩, waits⟩
    · exact ⟨code, Or.inl place, waits⟩
  | nil =>
    cases touch with
    | store value => exact placed_changeOrFail code waits place _ fun h p => h.closures_put p value
    | remove => exact placed_changeOrFail code waits place _ Heap.closures_erase

theorem placed_assignTo {pos : Position} (place : P pos) (name : String) {indexes : List Expr}
    (placed : PlacedExprs P indexes) (v : Value) :
    (assignTo it pos name indexes v work).Placed P loads := by
  cases indexes with
  | cons key rest => exact placed_reachInto code waits place name placed.1 placed.2 (.store v)
  | nil =>
    simp only [assignTo]
    split
    · exact ⟨code, Or.inl place, waits⟩
    · exact ⟨code.transfer rfl, trivial, waits⟩

omit waits in
theorem placed_defineItems {items : List Item} (placed : PlacedItems P items) :
    (defineItems it items).CodePlaced P := by
  fun_induction defineItems it items with
  | case1 it => exact code
  | case2 it pos name params body rest ih =>
    obtain ⟨first, others⟩ := List.forall_mem_cons.mp placed
    exact ih (code.define first.2) others
  | case3 it item rest _ ih => exact ih code (List.forall_mem_cons.mp placed).2

omit waits in
theorem placed_finishLoad (loading : loads) {items : List Item} (placed : PlacedItems P items) :
    (finishLoad it items []).Placed P loads := by
  have defined := placed_defineItems code placed
  unfold finishLoad
  dsimp only
  split
  · exact ⟨defined, trivial, trivial⟩
  · next fault complaint => exact ⟨defined, Or.inr ⟨loading, rfl, rfl, complaint⟩, trivial⟩

theorem placed_stepLoad {items : List Item} (placed : PlacedItems P items) :
    (stepLoad it work items).Placed P loads := by
  cases items with
  | nil => exact ⟨code, trivial, waits⟩
  | cons item rest =>
    obtain ⟨first, others⟩ := List.forall_mem_cons.mp placed
    cases item with
    | const pos name value => exact ⟨code.transfer rfl, first.2, trivial, others, waits⟩
    | assign pos name indexes value =>
      exact ⟨code.transfer rfl, first.2.2, ⟨first.1, first.2.1⟩, others, waits⟩
    | remark text => exact ⟨code, others, waits⟩
    | define pos name params body => exact ⟨code, others, waits⟩

theorem placed_stepEval {e : Expr} (placed : e.Placed P) : (stepEval it work e).Placed P loads := by
  cases e with
  | array pos items => exact placed_gather code waits [] placed.2 trivial
  | map pos entries => exact placed_gatherEntries code waits _ placed.2
  | «variable» pos name => exact placed_giveOrFail code waits placed _
  | index pos base key => exact ⟨code, placed.2.1, ⟨placed.1, placed.2.2⟩, waits⟩
  | lambda pos params body => exact ⟨code.makeLambda placed.2, trivial, waits⟩
  | call pos name args more => exact placed_gather code waits [] placed.2.1 ⟨placed.1, placed.2.2⟩
  | binary pos op left right => exact ⟨code, placed.2.1, ⟨placed.1, placed.2.2⟩, waits⟩
  | _ => exact ⟨code, trivial, waits⟩

theorem placed_stepCommand {rest : List Command} (others : PlacedBlock P rest) {c : Command}
    (placed : c.Placed P) : (stepCommand it rest work c).Placed P loads := by
  have above : PlacedWork P loads (.commands rest :: work) := ⟨others, waits⟩
  cases c with
  | remark pos text => exact ⟨code, others, waits⟩
  | assign pos name indexes value => exact ⟨code, placed.2.2, ⟨placed.1, placed.2.1⟩, above⟩
  | delete pos name indexes =>
    cases indexes with
    | nil => exact ⟨code, Or.inl placed.1, waits⟩
    | cons key keys => exact placed_reachInto code above placed.1 name placed.2.1 placed.2.2 .remove
  | result pos value => exact ⟨code, placed.2, trivial, above⟩
  | branch pos condition yes no => exact ⟨code, placed.2.1, placed.2.2, above⟩
  | loop pos condition body => exact ⟨code, placed.2.1, placed.2, above⟩
  | define pos name params body => exact ⟨code.define placed.2, others, waits⟩
  | call pos name args more =>
    have discards : PlacedWork P loads (.discard :: .commands rest :: work) := ⟨trivial, above⟩
    exact placed_gather code discards [] placed.2.1 ⟨placed.1, placed.2.2⟩

omit waits in
theorem code_exit (callee : Nat) (scope : ScopeId) (result : Option Value) (work : List Pending) :
    (exit it callee scope result work).CodePlaced P := by
  unfold exit
  dsimp only
  split <;> exact code.transfer rfl

theorem placed_stepGive (v : Value) {pending : Pending} (placed : pending.Placed P loads work) :
    (stepGive it v work pending).Placed P loads := by
  cases pending with
  | operand pos op right => exact ⟨code, placed.2, placed.1, waits⟩
  | operate pos op left => exact placed_giveOrFail code waits placed _
  | subscript pos key => exact ⟨code, placed.2, placed.1, waits⟩
  | select pos base => exact placed_giveOrFail code waits placed _
  | values done rest use => exact placed_gather code waits _ placed.1 placed.2
  | entries done name rest => exact placed_gatherEntries code waits _ placed
  | groups pos more =>
    cases more with
    | nil => exact ⟨code, trivial, waits⟩
    | cons args more => exact placed_gather code waits [] placed.2.1 ⟨placed.1, placed.2.2⟩
  | assign pos name indexes => exact placed_assignTo code waits placed.1 name placed.2 v
  | reach pos container rest touch => exact placed_reachOn code waits placed.1 container v placed.2 touch
  | branch yes no =>
    simp only [stepGive]
    split
    · exact ⟨code, placed.1, waits⟩
    · exact ⟨code, placed.2, waits⟩
  | test condition body =>
    simp only [stepGive]
    split
    · exact ⟨code, placed.2, placed, waits⟩
    · exact ⟨code, trivial, waits⟩
  | commands rest => exact ⟨code, placed, waits⟩
  | again condition body => exact ⟨code, placed.1, placed, waits⟩
  | call callee scope => exact ⟨code_exit code callee scope _ work, trivial, waits⟩
  | constant name => exact ⟨code.transfer rfl, trivial, waits⟩
  | items rest => exact ⟨code, placed, waits⟩
  | functions items =>
    obtain ⟨loading, rfl, all⟩ := placed
    exact placed_finishLoad code loading all
  | discard => exact ⟨code, trivial, waits⟩
  | result => exact ⟨code, trivial, waits⟩

theorem placed_stepFinish (result : Option Value) {pending : Pending}
    (placed : pending.Placed P loads work) : (stepFinish it result work pending).Placed P loads := by
  rcases call_or_not pending with ⟨callee, scope, rfl⟩ | notCall
  · exact ⟨code_exit code callee scope result work, trivial, waits⟩
  · rcases stepFinish_eq it result work notCall with given | ⟨v, _, passed⟩
    · rw [given]
      exact placed_stepGive code waits _ placed
    · rw [passed]
      exact ⟨code, trivial, waits⟩

theorem placed_stepFail {pos : Position} (place : P pos) (fault : Fault) (pending : Pending) :
    (stepFail it pos fault work pending).Placed P loads := by
  cases pending with
  | call callee scope => exact ⟨code_exit code callee scope none work, Or.inl place, waits⟩
  | _ => exact ⟨code, Or.inl place, waits⟩

end

variable {P : Position → Prop} {loads : Prop}

theorem placed_step {s : State} (placed : s.Placed P loads) : (step s).Placed P loads := by
  obtain ⟨it, control, work⟩ := s
  obtain ⟨code, placed, waits⟩ := placed
  cases control with
  | load items => exact placed_stepLoad code waits placed
  | eval e => exact placed_stepEval code waits placed
  | exec commands =>
    cases commands with
    | nil => exact ⟨code, trivial, waits⟩
    | cons c cs =>
      have moved : Interpreter.CodePlaced P { it with pos := c.pos } := code.transfer rfl
      exact placed_stepCommand moved waits placed.2 placed.1
  | give v =>
    cases work with
    | nil => exact ⟨code, trivial, waits⟩
    | cons pending work => exact placed_stepGive code waits.2 v waits.1
  | finish result =>
    cases work with
    | nil => exact ⟨code, trivial, waits⟩
    | cons pending work => exact placed_stepFinish code waits.2 result waits.1
  | fail pos fault =>
    cases work with
    | nil => exact ⟨code, placed, waits⟩
    | cons pending work =>
      -- a complaint has no work left to give up
      rcases placed with place | ⟨_, none, _⟩
      · exact placed_stepFail code waits.2 place fault pending
      · cases none
  | stop fatal => exact ⟨code, trivial, waits⟩

/-- Where a run that starts with placed code can fail. -/
theorem run_placed {n : Nat} {s : State} {result : Except Error Value} {last : Interpreter}
    (ran : run n s = some (result, last)) (placed : s.Placed P loads) :
    last.CodePlaced P ∧
      ∀ pos fault, result = .error (.eval pos fault) → P pos ∨ loads ∧ Complaint last pos fault := by
  obtain ⟨t, placed, ended, rfl⟩ := run_ends (P := State.Placed P loads) (fun _ => placed_step) ran placed
  refine ⟨placed.code, ?_⟩
  rintro pos fault rfl
  have control := placed.control
  unfold State.outcome? at ended
  split at ended
  · cases ended
  · cases ended
  · cases ended
  · next failed _ =>
    cases ended
    rw [failed] at control
    exact control.imp_right fun complaint => ⟨complaint.1, complaint.2.2⟩
  · cases ended

theorem placed_new (config : Config) (streams : Streams) : (Interpreter.new config streams).CodePlaced P :=
  fun _ => trivial

theorem placed_loading {it : Interpreter} (code : it.CodePlaced P) {program : Syntax.Program}
    (placed : PlacedItems P program.items) : (loading it program).Placed P True :=
  ⟨code, placed, ⟨trivial, rfl, placed⟩, trivial⟩

/-- The main function can be called from anywhere, since it takes no arguments. -/
theorem placed_calling {it : Interpreter} (code : it.CodePlaced P) (outermost : it.active = Arena.globalScope)
    (main : mainFault? it = none) : (calling it "main" []).Placed P False := by
  obtain ⟨ref, found, params⟩ := findClosure_main outermost main
  have noBuiltin : Builtin.ofName? "main" = none := by decide
  unfold calling invoke
  rw [noBuiltin, found]
  have idle : PlacedWork P False [] := trivial
  exact placed_enter code idle (Or.inr (by rw [params]; rfl))

end Machine

/-! ### Whole runs -/

open Machine (mainFault?)

/-- Loading has found no main function, or one with parameters. This has no place. -/
structure LoadComplaint (n : Nat) (config : Config) (streams : Streams) (program : Syntax.Program)
    (pos : Position) (fault : Fault) (last : Interpreter) : Prop where
  loading : (Interpreter.new config streams).load n program = some (.error (.eval pos fault), last)
  none : pos = .none
  main : fault = .noMain ∨ ∃ params, fault = .arityMismatch "main" params 0

theorem mainFault?_cases {it : Interpreter} {fault : Fault} (wrong : mainFault? it = some fault) :
    fault = .noMain ∨ ∃ params, fault = .arityMismatch "main" params 0 := by
  unfold mainFault? at wrong
  dsimp only at wrong
  split at wrong
  · exact Or.inl (Option.some.inj wrong).symm
  · split at wrong
    · cases wrong
    · exact Or.inr ⟨_, (Option.some.inj wrong).symm⟩

theorem runProgram_placed {P : Position → Prop} {n : Nat} {config : Config} {streams : Streams}
    {program : Syntax.Program} (placed : PlacedItems P program.items) {pos : Position} {fault : Fault}
    {last : Interpreter}
    (ended : (Interpreter.new config streams).runProgram n program = some (.error (.eval pos fault), last)) :
    LoadComplaint n config streams program pos fault last ∨ P pos := by
  have start := Machine.placed_loading (Machine.placed_new (P := P) config streams) placed
  rcases Interpreter.runProgram_cases.mp ended with ⟨v, mid, loaded, main⟩ | ⟨e, mid, loaded, same⟩
  · have code := (Machine.run_placed loaded start).1
    have called := Machine.placed_calling code (Host.active_of_loaded loaded) (Machine.mainFault?_of_loaded loaded)
    rcases (Machine.run_placed main called).2 pos fault rfl with place | ⟨loads, _⟩
    · exact Or.inr place
    · exact loads.elim
  · cases same
    rcases (Machine.run_placed loaded start).2 pos fault rfl with place | ⟨_, none, wrong⟩
    · exact Or.inr place
    · exact Or.inl ⟨loaded, none, mainFault?_cases wrong⟩

/-- An error of a running program stands at a token of its source. -/
theorem error_in_source {n : Nat} {source : String} {config : Config} {streams : Streams} {pos : Position}
    {fault : Fault} {last : Interpreter}
    (ended : execute n source config streams = some (.error (.eval pos fault), last)) :
    ∃ tokens program, Token.lex source = .ok tokens ∧ Syntax.parse tokens = .ok program ∧
      (LoadComplaint n config streams program pos fault last ∨ ∃ t ∈ tokens, t.pos = pos) := by
  unfold execute Interpreter.runSource Syntax.parseSource at ended
  cases lexed : Token.lex source with
  | error e => simp [lexed] at ended
  | ok tokens =>
    cases parsed : Syntax.parse tokens with
    | error e => simp [lexed, parsed] at ended
    | ok program =>
      simp only [lexed, parsed] at ended
      exact ⟨tokens, program, rfl, parsed, runProgram_placed (Syntax.placed_of_parse parsed) ended⟩

/-- The second line makes a function that fails when the third line calls it. -/
def failing : String := "def main()\nlet f = (a) => a[2];\nreturn f([1]);\nend"

theorem error_in_source_failing : ∃ last tokens,
    execute 60 failing ⟨1000, 7⟩ {} = some (.error (.eval ⟨2, 17⟩ (.indexOutOfBounds 2 1)), last) ∧
      Token.lex failing = .ok tokens ∧ ∃ t ∈ tokens, t.pos = ⟨2, 17⟩ := by
  have fails : (execute 60 failing ⟨1000, 7⟩ {}).any
      (fun o => (o.1.map fun _ => ()) = .error (.eval ⟨2, 17⟩ (.indexOutOfBounds 2 1))) = true := by
    decide +kernel
  obtain ⟨⟨result, last⟩, ended, failed⟩ := (Option.any_eq_true _ _).mp fails
  cases result with
  | ok _ => exact absurd (of_decide_eq_true failed) nofun
  | error e =>
    obtain rfl : e = .eval ⟨2, 17⟩ (.indexOutOfBounds 2 1) := by
      simpa only [Except.map, Except.error.injEq] using of_decide_eq_true failed
    obtain ⟨tokens, program, lexed, _, complaint | place⟩ := error_in_source ended
    · exact absurd complaint.none (by decide)
    · exact ⟨last, tokens, ended, lexed, place⟩

end RetroScript
