import RetroScript.Machine.Builtin
import RetroScript.Proofs.Store

/-!
# What builtins can change

A builtin writes, reads, draws, draws lots, or makes one new array of strings. Scopes, constants,
calls and the containers that exist stay as they are.
-/

namespace RetroScript

theorem Sink.limit_write (s : Sink) (text : String) : (s.write text).2.limit = s.limit := by
  unfold write
  dsimp only
  repeat' split
  all_goals rfl

namespace Builtin

/-- An answer that a builtin can give in a state. -/
structure Answers (it : Interpreter) (answer : Answer) : Prop where
  frame : answer.2 =
    { it with
      heap := answer.2.heap, out := answer.2.out, diag := answer.2.diag
      input := answer.2.input, random := answer.2.random, video := answer.2.video }
  diag : answer.2.diag.limit = it.diag.limit
  result : answer.2.heap = it.heap ∧ (∀ v, answer.1 = .ok v → v.Plain) ∨
    ∃ names : List String,
      (answer.1, answer.2.heap) =
        (.ok (it.heap.newArray (names.map Value.string).toArray).1,
          (it.heap.newArray (names.map Value.string).toArray).2)

variable {it : Interpreter}

theorem answers_fault (b : Builtin) (f : BuiltinFault) : Answers it (b.fault it f) :=
  ⟨rfl, .refl _, Or.inl ⟨rfl, fun _ found => by cases found⟩⟩

theorem answers_value {v : Value} (plain : v.Plain) : Answers it (.ok v, it) :=
  ⟨rfl, .refl _, Or.inl ⟨rfl, fun _ found => by cases found; exact plain⟩⟩

theorem answers_lift (b : Builtin) {r : Except BuiltinFault Value}
    (plain : ∀ v, r = .ok v → v.Plain) : Answers it (b.lift it r) := by
  unfold lift
  split
  · exact answers_value (plain _ rfl)
  · exact answers_fault b _

theorem answers_write (b : Builtin) (text : String) : Answers it (b.write it text) := by
  unfold write
  dsimp only
  split
  · exact ⟨rfl, .refl _, Or.inl ⟨rfl, fun _ found => by cases found; trivial⟩⟩
  · exact ⟨rfl, .refl _, Or.inl ⟨rfl, fun _ found => by cases found⟩⟩

theorem answers_readLine (b : Builtin) (prompt : String) : Answers it (b.readLine it prompt) := by
  unfold readLine write
  cases fits : (it.out.write prompt).1 with
  | false =>
    simp only [fits, Bool.false_eq_true, if_false, fault]
    exact ⟨rfl, .refl _, Or.inl ⟨rfl, fun _ found => by cases found⟩⟩
  | true =>
    simp only [fits, if_true, done]
    split
    · exact ⟨rfl, .refl _, Or.inl ⟨rfl, fun _ found => by cases found; trivial⟩⟩
    · exact ⟨rfl, .refl _, Or.inl ⟨rfl, fun _ found => by cases found⟩⟩

theorem answers_check (a b : Value) (message : String) : Answers it (check it a b message) := by
  unfold check
  split
  · exact answers_value trivial
  · exact ⟨rfl, it.diag.limit_write _, Or.inl ⟨rfl, fun _ found => by cases found⟩⟩

theorem answers_draw (b : Builtin) (numbers : List Int) : Answers it (b.draw it numbers) := by
  unfold draw
  dsimp only
  repeat' split
  all_goals exact ⟨rfl, .refl _, Or.inl ⟨rfl, fun _ found => by cases found <;> trivial⟩⟩

theorem substring_plain {s start v : Value} {length : Option Value}
    (found : substring s start length = .ok v) : v.Plain := by
  simp only [substring, bind, Except.bind] at found
  repeat' split at found
  all_goals cases found
  all_goals trivial

theorem replaced_plain {s old new v : Value} (found : replaced s old new = .ok v) : v.Plain := by
  simp only [replaced, bind, Except.bind] at found
  repeat' split at found
  all_goals cases found
  all_goals trivial

theorem answers_act (b : Builtin) (args : List Value) : Answers it (b.act it args) := by
  unfold act
  split
  · exact answers_write _ _
  · exact answers_readLine _ _
  · exact answers_value trivial
  · exact answers_value trivial
  · exact answers_fault _ _
  · exact answers_lift _ fun _ => substring_plain
  · exact answers_lift _ fun _ => substring_plain
  · exact answers_lift _ fun _ => replaced_plain
  · exact ⟨rfl, .refl _, Or.inr ⟨_, rfl⟩⟩
  · exact answers_fault _ _
  · exact ⟨rfl, .refl _, Or.inl ⟨rfl, fun _ found => by cases found; trivial⟩⟩
  · unfold Interpreter.dump
    split
    · next same =>
      obtain ⟨_, rfl⟩ := Prod.mk.inj same
      exact ⟨rfl, it.diag.limit_write _, Or.inl ⟨rfl, fun _ found => by cases found; trivial⟩⟩
    · next same =>
      obtain ⟨_, rfl⟩ := Prod.mk.inj same
      exact ⟨rfl, it.diag.limit_write _, Or.inl ⟨rfl, fun _ found => by cases found⟩⟩
  · exact answers_check _ _ _
  · split
    · exact answers_check _ _ _
    · exact answers_fault _ _
  · exact ⟨rfl, .refl _, Or.inl ⟨rfl, fun _ found => by cases found; trivial⟩⟩
  · exact ⟨rfl, .refl _, Or.inl ⟨rfl, fun _ found => by cases found; trivial⟩⟩
  · split
    · exact answers_draw _ _
    · exact answers_fault _ _

theorem answers_call (it : Interpreter) (b : Builtin) (args : List Value) :
    Answers it (b.call it args) := by
  unfold call
  dsimp only
  split
  · exact answers_fault _ _
  · exact answers_act _ _

end Builtin

end RetroScript
