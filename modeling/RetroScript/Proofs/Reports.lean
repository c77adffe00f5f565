import RetroScript.Proofs.Agreement
import RetroScript.Proofs.CallStack

/-!
# Reports and builtins

Interpreters that agree write reports that differ at most in the numbers of scopes. So a builtin does
the same in both, unless a dump does not fit.
-/

namespace RetroScript

/-! ### Sinks -/

/-- A sink keeps what has been written to it so far, and what is written next. -/
theorem Sink.Keeps.write {s : Sink} {all : ByteArray} (keeps : s.Keeps all) (text : String) :
    (s.write text).2.Keeps (all ++ text.toUTF8) := by
  obtain ⟨rest, rfl, short⟩ := keeps
  unfold Sink.write
  dsimp only
  split
  · next unlimited =>
    rcases short with rfl | ⟨limit, same, _⟩
    · exact ⟨.empty, by simp only [ByteArray.append_empty], Or.inl rfl⟩
    · cases unlimited.symm.trans same
  · next limit same =>
    split
    · next fits =>
      rcases short with rfl | ⟨_, limited, full⟩
      · exact ⟨.empty, by simp only [ByteArray.append_empty], Or.inl rfl⟩
      · obtain rfl := Option.some.inj (same.symm.trans limited)
        have nothing : text.toUTF8 = .empty := ByteArray.size_eq_zero_iff.mp (by omega)
        refine ⟨rest, ?_, Or.inr ⟨limit, same, ?_⟩⟩
        · simp only [nothing, ByteArray.append_empty]
        · simpa only [nothing, ByteArray.append_empty] using full
    · next cut =>
      have full : limit ≤ (s.bytes ++ text.toUTF8.extract 0 (limit - s.bytes.size)).size := by
        rw [ByteArray.size_append, ByteArray.size_extract]
        omega
      rcases short with rfl | ⟨_, limited, before⟩
      · refine ⟨text.toUTF8.extract (limit - s.bytes.size) text.toUTF8.size, ?_,
          Or.inr ⟨limit, same, full⟩⟩
        rw [ByteArray.append_empty, ByteArray.append_assoc, ByteArray.extract_append_extract,
          Nat.zero_min, Nat.max_eq_right (Nat.le_of_not_le cut), ByteArray.extract_zero_size]
      · obtain rfl := Option.some.inj (same.symm.trans limited)
        refine ⟨rest ++ text.toUTF8, ?_, Or.inr ⟨limit, same, full⟩⟩
        simp only [Nat.sub_eq_zero_of_le before, ByteArray.extract_same, ByteArray.append_empty,
          ByteArray.append_assoc]

theorem Sink.Alike.write {s₁ s₂ : Sink} (alike : s₁.Alike s₂) {text₁ text₂ : String}
    (renumbered : Renumbered text₁.toUTF8 text₂.toUTF8) :
    (s₁.write text₁).2.Alike (s₂.write text₂).2 := by
  obtain ⟨all₁, all₂, before, keeps₁, keeps₂⟩ := alike
  exact ⟨_, _, before.append renumbered, keeps₁.write text₁, keeps₂.write text₂⟩

/-! ### Texts -/

theorem renumbered_append {s₁ s₂ t₁ t₂ : String} (first : Renumbered s₁.toUTF8 s₂.toUTF8)
    (second : Renumbered t₁.toUTF8 t₂.toUTF8) : Renumbered (s₁ ++ t₁).toUTF8 (s₂ ++ t₂).toUTF8 := by
  simp only [String.toUTF8, String.toByteArray_append]
  exact .append first second

theorem renumbered_number (text : String) (a b : ScopeId) :
    Renumbered (text ++ " #" ++ toString a).toUTF8 (text ++ " #" ++ toString b).toUTF8 := by
  rw [String.append_assoc, String.append_assoc]
  exact renumbered_append (.same _) (.scope a b)

theorem renumbered_join {l₁ l₂ : List String}
    (related : List.Forall₂ (fun s t => Renumbered s.toUTF8 t.toUTF8) l₁ l₂) :
    Renumbered (String.join l₁).toUTF8 (String.join l₂).toUTF8 := by
  have folded : ∀ {start₁ start₂ : String}, Renumbered start₁.toUTF8 start₂.toUTF8 →
      Renumbered (l₁.foldl (· ++ ·) start₁).toUTF8 (l₂.foldl (· ++ ·) start₂).toUTF8 := by
    induction related with
    | nil => exact fun start => start
    | cons first _ ih => exact fun start => ih (renumbered_append start first)
  exact folded (.same _)

theorem forall₂_mapIdx {α β γ δ : Type} {R : α → β → Prop} {T : γ → δ → Prop} {l₁ : List α}
    {l₂ : List β} (related : List.Forall₂ R l₁ l₂) {f : Nat → α → γ} {g : Nat → β → δ}
    (mapped : ∀ {i x y}, R x y → T (f i x) (g i y)) :
    List.Forall₂ T (l₁.mapIdx f) (l₂.mapIdx g) := by
  induction related generalizing f g with
  | nil => exact .nil
  | cons first _ ih =>
    rw [List.mapIdx_cons, List.mapIdx_cons]
    exact .cons (mapped first) (ih mapped)

/-! ### Reports -/

namespace Interpreter

variable {k : Nat} {S : ScopeId → ScopeId → Prop} {V : Value → Prop} {it₁ it₂ : Interpreter}

theorem Agree.varsText (agree : Agree k S V it₁ it₂) (vars : Dict Value) :
    varsText it₁.heap vars = varsText it₂.heap vars := by
  simp only [Interpreter.varsText, agree.heap.text]

theorem Agree.scopeText (agree : Agree k S V it₁ it₂) (depth : Nat) (a b : ScopeId) {s₁ s₂ : Scope}
    (alike : s₁.Alike S s₂) :
    Renumbered (scopeText it₁.heap depth a s₁).toUTF8 (scopeText it₂.heap depth b s₂).toUTF8 := by
  unfold Interpreter.scopeText
  rw [alike.function, alike.vars, alike.defs, agree.varsText]
  iterate 9 refine renumbered_append ?_ (.same _)
  exact renumbered_number _ a b

theorem Agree.frameText (agree : Agree k S V it₁ it₂) (depth : Nat) {f₁ f₂ : Frame}
    (alike : f₁.Alike S f₂) : it₁.frameText depth f₁ = it₂.frameText depth f₂ := by
  unfold Interpreter.frameText
  rw [alike.pos, alike.function, (agree.scope alike.caller).vars, agree.varsText]

theorem Agree.report (agree : Agree 0 S V it₁ it₂) (wellFormed₁ : it₁.arena.WellFormed)
    (wellFormed₂ : it₂.arena.WellFormed) (message : String) :
    Renumbered (it₁.report message).toUTF8 (it₂.report message).toUTF8 := by
  have consts : it₁.consts.sorted.map (constText it₁.heap) =
      it₂.consts.sorted.map (constText it₂.heap) := by
    have same : constText it₁.heap = constText it₂.heap := by
      funext e
      simp only [constText, agree.heap.text]
    rw [agree.consts, same]
  have chain := renumbered_join (forall₂_mapIdx (agree.chain wellFormed₁ wellFormed₂ agree.active)
    (f := fun i x => Interpreter.scopeText it₁.heap i x.1 x.2)
    (g := fun i y => Interpreter.scopeText it₂.heap i y.1 y.2)
    fun related => agree.scopeText _ _ _ related.2)
  have frames : it₁.frames.toList.mapIdx it₁.frameText = it₂.frames.toList.mapIdx it₂.frameText := by
    rw [← List.forall₂_eq_eq_eq]
    exact forall₂_mapIdx agree.frames fun alike => agree.frameText _ alike
  have pos : it₁.pos = it₂.pos := agree.visible Interpreter.pos fun _ => rfl
  unfold Interpreter.report
  rw [consts, frames, pos]
  iterate 7 refine renumbered_append ?_ (.same _)
  exact renumbered_append (.same _) chain

theorem Agree.dump (agree : Agree k S V it₁ it₂) (wellFormed₁ : it₁.arena.WellFormed)
    (wellFormed₂ : it₂.arena.WellFormed) (message : String) :
    Agree k S V (it₁.dump message).2 (it₂.dump message).2 :=
  { agree with
    outward := agree.outward
    carries := agree.carries.transfer rfl rfl rfl agree.carries.heap
    dumps := by
      rintro rfl
      exact agree.diag.write (agree.report wellFormed₁ wellFormed₂ message) }

end Interpreter

/-! ### Builtins -/

namespace Builtin

variable {k : Nat} {S : ScopeId → ScopeId → Prop} {V : Value → Prop} {it₁ it₂ : Interpreter}

/-- An answer that a dump does not fit. -/
def Refused (a : Answer) : Prop := a.2.diag.limit ≠ none ∧ a.1 = .error .refusedDump

end Builtin

end RetroScript
