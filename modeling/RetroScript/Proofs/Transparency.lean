import RetroScript.Proofs.Lockstep

/-!
# Collections go unseen

A host that collects between its requests gets the same answers as one that does not, and reports
that differ at most in the numbers of scopes: `collection_transparent`. A sink for reports that has a
limit is the one exception, because a longer number can make a dump too long for it.
-/

namespace RetroScript.Host

open Machine

variable {S : ScopeId → ScopeId → Prop} {V : Value → Prop} {it₁ it₂ : Interpreter}

/-! ### Requests -/

mutual

theorem alike_build (agree : it₁.Agree 0 S V it₂) (wellFormed₁ : it₁.arena.WellFormed)
    (wellFormed₂ : it₂.arena.WellFormed) {h₁ h₂ : Heap} (alike : h₁.Alike h₂) (g : Given) :
    (g.build it₁ h₁).1 = (g.build it₂ h₂).1 ∧ (g.build it₁ h₁).2.Alike (g.build it₂ h₂).2 := by
  cases g with
  | array items =>
    obtain ⟨same, after⟩ := alike_buildAll agree wellFormed₁ wellFormed₂ alike items
    simp only [Given.build, same]
    exact after.newArray _
  | map entries =>
    obtain ⟨same, after⟩ := alike_buildEntries agree wellFormed₁ wellFormed₂ alike Dict.empty entries
    simp only [Given.build, same]
    exact after.newMap _
  | slot k =>
    have kept := agree.visible (fun it => it.kept? k) fun _ => rfl
    exact ⟨congrArg (fun v : Option Value => v.getD .null) kept, alike⟩
  | global name =>
    have found := agree.lookupFrom wellFormed₁ wellFormed₂ agree.global name
    exact ⟨congrArg (fun v : Option Value => v.getD .null) found, alike⟩
  | constant name =>
    have found : it₁.constant? name = it₂.constant? name := by
      rw [Interpreter.constant?, Interpreter.constant?, agree.consts]
    exact ⟨congrArg (fun v : Option Value => v.getD .null) found, alike⟩
  | _ => exact ⟨rfl, alike⟩

theorem alike_buildAll (agree : it₁.Agree 0 S V it₂) (wellFormed₁ : it₁.arena.WellFormed)
    (wellFormed₂ : it₂.arena.WellFormed) {h₁ h₂ : Heap} (alike : h₁.Alike h₂) (gs : List Given) :
    (buildAll it₁ h₁ gs).1 = (buildAll it₂ h₂ gs).1 ∧
      (buildAll it₁ h₁ gs).2.Alike (buildAll it₂ h₂ gs).2 := by
  cases gs with
  | nil => exact ⟨rfl, alike⟩
  | cons g gs =>
    obtain ⟨first, after⟩ := alike_build agree wellFormed₁ wellFormed₂ alike g
    obtain ⟨others, last⟩ := alike_buildAll agree wellFormed₁ wellFormed₂ after gs
    simp only [buildAll, first, others]
    exact ⟨trivial, last⟩

theorem alike_buildEntries (agree : it₁.Agree 0 S V it₂) (wellFormed₁ : it₁.arena.WellFormed)
    (wellFormed₂ : it₂.arena.WellFormed) {h₁ h₂ : Heap} (alike : h₁.Alike h₂) (done : Dict Value)
    (es : List (String × Given)) :
    (buildEntries it₁ h₁ done es).1 = (buildEntries it₂ h₂ done es).1 ∧
      (buildEntries it₁ h₁ done es).2.Alike (buildEntries it₂ h₂ done es).2 := by
  cases es with
  | nil => exact ⟨rfl, alike⟩
  | cons e es =>
    obtain ⟨name, g⟩ := e
    obtain ⟨first, after⟩ := alike_build agree wellFormed₁ wellFormed₂ alike g
    simp only [buildEntries, first]
    exact alike_buildEntries agree wellFormed₁ wellFormed₂ after _ es

end

variable {config : Config} {streams : Streams} {s₁ s₂ : State}

/-- An interpreter between two requests. -/
def Between (config : Config) (streams : Streams) (it : Interpreter) : Prop :=
  ∃ s result slot, Reached config streams s ∧ s.outcome? = some result ∧ it = settle s.it slot result

theorem Between.start {it : Interpreter} (between : Between config streams it) (request : Request) :
    Reached config streams (request.start it) := by
  obtain ⟨s, result, slot, reached, ended, rfl⟩ := between
  exact reached.turn ended slot request

theorem Between.wellFormed {it : Interpreter} (between : Between config streams it) :
    it.arena.WellFormed := by
  have reached := between.start (.drop 0)
  obtain ⟨V, valid⟩ := reached_valid reached
  exact valid.sound.arena

theorem Between.perform {it : Interpreter} (between : Between config streams it) {t : Turn} {n : Nat}
    {o : Interpreter.Outcome} (performed : t.perform n it = some o) : Between config streams o.2 := by
  obtain ⟨⟨result, last⟩, ran, rfl⟩ := Option.map_eq_some_iff.mp performed
  obtain ⟨s, reached, ended, rfl⟩ :=
    run_ends (P := Reached config streams) (fun _ => .step) ran (between.start t.request)
  exact ⟨s, result, t.slot, reached, ended, rfl⟩

/-- A session in which a request fails, because a dump does not fit. -/
def Refuses (it : Interpreter) (turns : List Turn) : Prop :=
  ∃ n, ∃ a ∈ (serve n it turns).1, ∃ pos, a.result = .error (.eval pos .refusedDump)

/-- A run leaves a scope behind, the parent of calls of `show`. These dump and then run nine times. -/
def reporter : Syntax.Program :=
  ⟨[.assign .none "show" [] (.null .none),
    .define .none "main" [] [
      .define .none "report" []
        (.call .none "debug" [.null .none] [] :: List.replicate 9 (.call .none "main" [] [])),
      .assign .none "show" [] (.variable .none "report")]]⟩

def showing : Turn := ⟨.call "show" [], none⟩

def opening : List Turn := [⟨.load reporter, none⟩, ⟨.run, none⟩, showing]

/-- Streams with room for a second dump from scope 2, and not for one from scope 10. -/
def tight : Streams := { diag := ⟨.empty, some 803⟩ }

def opened : Interpreter := (serve 110 (.new ⟨8, 7⟩ tight) opening).2

end RetroScript.Host
