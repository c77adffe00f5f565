import Mathlib.Data.List.Forall2
import RetroScript.Proofs.Holding
import RetroScript.Value.Operation

/-!
# Interpreters that differ in their scopes

`Agree k S V it₁ it₂` says that two interpreters hold the same values and do the same, where `S` pairs
the scopes of the first with those of the second that stand for them. Only scopes that can matter are
paired: each side may have garbage of its own.
-/

namespace RetroScript

/-! ### Heaps -/

namespace Value

variable {h₁ h₂ : Heap}

/-- What a text shows of a heap. -/
theorem textIn_congr (array : ∀ ref, h₁.array ref = h₂.array ref)
    (map : ∀ ref, (h₁.map ref).sorted = (h₂.map ref).sorted)
    (signature : ∀ ref, (h₁.closure ref).signature = (h₂.closure ref).signature) (n : Nat)
    (outer : List Value) (v : Value) : textIn h₁ n outer v = textIn h₂ n outer v := by
  induction n generalizing outer v with
  | zero =>
    cases v with
    | closure ref => exact signature ref
    | _ => rfl
  | succ n ih =>
    cases v with
    | closure ref => exact signature ref
    | array ref => simp only [textIn, array, funext (ih (.array ref :: outer))]
    | map ref => simp only [textIn, map, ih]
    | _ => rfl

theorem equalIn_congr (array : ∀ ref, h₁.array ref = h₂.array ref)
    (map : ∀ ref, h₁.map ref = h₂.map ref) (n : Nat) (outer : List (Value × Value)) (a b : Value) :
    equalIn h₁ n outer a b = equalIn h₂ n outer a b := by
  induction n generalizing outer a b with
  | zero => cases a <;> cases b <;> simp only [equalIn]
  | succ n ih => cases a <;> cases b <;> simp only [equalIn, array, map, ih]

end Value

/-- Heaps that differ only in the scopes of functions. -/
structure Heap.Alike (h₁ h₂ : Heap) : Prop where
  arrays : h₁.arrays = h₂.arrays
  maps : h₁.maps = h₂.maps
  size : h₁.closures.size = h₂.closures.size
  name : ∀ ref, (h₁.closure ref).name = (h₂.closure ref).name
  params : ∀ ref, (h₁.closure ref).params = (h₂.closure ref).params
  body : ∀ ref, (h₁.closure ref).body = (h₂.closure ref).body

namespace Heap

variable {h₁ h₂ : Heap}

theorem Alike.refl (h : Heap) : h.Alike h := ⟨rfl, rfl, rfl, fun _ => rfl, fun _ => rfl, fun _ => rfl⟩

theorem Alike.symm (alike : h₁.Alike h₂) : h₂.Alike h₁ :=
  ⟨alike.arrays.symm, alike.maps.symm, alike.size.symm, fun ref => (alike.name ref).symm,
    fun ref => (alike.params ref).symm, fun ref => (alike.body ref).symm⟩

theorem Alike.array (alike : h₁.Alike h₂) (ref : Nat) : h₁.array ref = h₂.array ref := by
  simp only [Heap.array, alike.arrays]

theorem Alike.map (alike : h₁.Alike h₂) (ref : Nat) : h₁.map ref = h₂.map ref := by
  simp only [Heap.map, alike.maps]

/-- Changes that leave functions alone and do the same to containers. -/
theorem Alike.change (alike : h₁.Alike h₂) {h₁' h₂' : Heap} (first : h₁'.closures = h₁.closures)
    (second : h₂'.closures = h₂.closures) (arrays : h₁'.arrays = h₂'.arrays)
    (maps : h₁'.maps = h₂'.maps) : h₁'.Alike h₂' where
  arrays := arrays
  maps := maps
  size := by rw [first, second]; exact alike.size
  name ref := by simpa only [Heap.closure, first, second] using alike.name ref
  params ref := by simpa only [Heap.closure, first, second] using alike.params ref
  body ref := by simpa only [Heap.closure, first, second] using alike.body ref

theorem Alike.newArray (alike : h₁.Alike h₂) (items : Array Value) :
    (h₁.newArray items).1 = (h₂.newArray items).1 ∧
      (h₁.newArray items).2.Alike (h₂.newArray items).2 := by
  refine ⟨by simp only [Heap.newArray, alike.arrays], alike.change rfl rfl ?_ alike.maps⟩
  simp only [Heap.newArray, alike.arrays]

theorem Alike.newMap (alike : h₁.Alike h₂) (entries : Dict Value) :
    (h₁.newMap entries).1 = (h₂.newMap entries).1 ∧
      (h₁.newMap entries).2.Alike (h₂.newMap entries).2 := by
  refine ⟨by simp only [Heap.newMap, alike.maps], alike.change rfl rfl alike.arrays ?_⟩
  simp only [Heap.newMap, alike.maps]

theorem Alike.newClosure (alike : h₁.Alike h₂) (name : String) (params : List String)
    (body : List Syntax.Command) (scope₁ scope₂ : ScopeId) :
    (h₁.newClosure ⟨name, params, body, scope₁⟩).2.Alike
      (h₂.newClosure ⟨name, params, body, scope₂⟩).2 where
  arrays := alike.arrays
  maps := alike.maps
  size := by simp only [Heap.newClosure, Array.size_push, alike.size]
  name ref := by
    rw [closure_newClosure, closure_newClosure, alike.size]
    split
    · rfl
    · exact alike.name ref
  params ref := by
    rw [closure_newClosure, closure_newClosure, alike.size]
    split
    · rfl
    · exact alike.params ref
  body ref := by
    rw [closure_newClosure, closure_newClosure, alike.size]
    split
    · rfl
    · exact alike.body ref

theorem Alike.put (alike : h₁.Alike h₂) (p : Place) (v : Value) : (h₁.put p v).Alike (h₂.put p v) := by
  cases p with
  | item ref i =>
    exact alike.change rfl rfl (by simp only [Heap.put, modifyArray, alike.arrays]) alike.maps
  | entry ref name =>
    exact alike.change rfl rfl alike.arrays (by simp only [Heap.put, modifyMap, alike.maps])

theorem Alike.erase (alike : h₁.Alike h₂) (p : Place) : (h₁.erase p).Alike (h₂.erase p) := by
  cases p with
  | item ref i =>
    exact alike.change rfl rfl (by simp only [Heap.erase, modifyArray, alike.arrays]) alike.maps
  | entry ref name =>
    exact alike.change rfl rfl alike.arrays (by simp only [Heap.erase, modifyMap, alike.maps])

theorem Alike.place (alike : h₁.Alike h₂) (room : Nat) (base key : Value) :
    h₁.place room base key = h₂.place room base key := by
  cases base with
  | array ref => simp only [Heap.place, alike.array]
  | _ => rfl

theorem Alike.get (alike : h₁.Alike h₂) (p : Place) : h₁.get p = h₂.get p := by
  cases p with
  | item ref i => simp only [Heap.get, alike.array]
  | entry ref name => simp only [Heap.get, alike.map]

theorem Alike.read (alike : h₁.Alike h₂) (base key : Value) : h₁.read base key = h₂.read base key := by
  have same : h₁.get = h₂.get := funext alike.get
  simp only [Heap.read, alike.place, same]

theorem Alike.text (alike : h₁.Alike h₂) (v : Value) : v.text h₁ = v.text h₂ := by
  have signature : ∀ ref, (h₁.closure ref).signature = (h₂.closure ref).signature := fun ref => by
    rw [Closure.signature, Closure.signature, alike.name, alike.params]
  rw [Value.text, Value.text, containers, containers, alike.arrays, alike.maps]
  exact Value.textIn_congr alike.array (fun ref => congrArg Dict.sorted (alike.map ref)) signature _ _ v

theorem Alike.equal (alike : h₁.Alike h₂) (a b : Value) : a.equal h₁ b = a.equal h₂ b := by
  rw [Value.equal, Value.equal, Value.pairs, Value.pairs, alike.arrays, alike.maps]
  exact Value.equalIn_congr alike.array alike.map _ _ a b

theorem Alike.apply (alike : h₁.Alike h₂) (op : Syntax.Operator) (l r : Value) :
    op.apply h₁ l r = op.apply h₂ l r := by
  cases op with
  | add => simp only [Syntax.Operator.apply, alike.text]
  | _ => rfl

end Heap

/-! ### Scopes and interpreters -/

theorem findSome?_forall₂ {α β γ : Type} {R : α → β → Prop} {l₁ : List α} {l₂ : List β}
    (related : List.Forall₂ R l₁ l₂) {f : α → Option γ} {g : β → Option γ}
    (same : ∀ {x y}, R x y → f x = g y) : l₁.findSome? f = l₂.findSome? g := by
  induction related with
  | nil => rfl
  | cons first _ ih => rw [List.findSome?_cons, List.findSome?_cons, same first, ih]

theorem find?_forall₂ {α β : Type} {R : α → β → Prop} {l₁ : List α} {l₂ : List β}
    (related : List.Forall₂ R l₁ l₂) {p : α → Bool} {q : β → Bool}
    (same : ∀ {x y}, R x y → p x = q y) : Option.Rel R (l₁.find? p) (l₂.find? q) := by
  induction related with
  | nil => exact .none
  | cons first _ ih =>
    rw [List.find?_cons, List.find?_cons, same first]
    split
    · exact .some first
    · exact ih

theorem forall₂_concat_left {α β : Type} {R : α → β → Prop} {l₁ : List α} {x : α} {l : List β}
    (related : List.Forall₂ R (l₁ ++ [x]) l) :
    ∃ l₂ y, l = l₂ ++ [y] ∧ List.Forall₂ R l₁ l₂ ∧ R x y := by
  induction l₁ generalizing l with
  | nil =>
    cases related with
    | cons first rest =>
      cases rest
      exact ⟨[], _, rfl, .nil, first⟩
  | cons z l₁ ih =>
    cases related with
    | cons first rest =>
      obtain ⟨l₂, y, rfl, before, last⟩ := ih rest
      exact ⟨_ :: l₂, y, rfl, .cons first before, last⟩

theorem rel_map_getD {α β γ δ : Type} {R : α → β → Prop} {T : γ → δ → Prop} {o₁ : Option α}
    {o₂ : Option β} (rel : Option.Rel R o₁ o₂) {f : α → γ} {g : β → δ} {c : γ} {d : δ}
    (mapped : ∀ {x y}, R x y → T (f x) (g y)) (otherwise : T c d) :
    T ((o₁.map f).getD c) ((o₂.map g).getD d) := by
  cases rel with
  | none => exact otherwise
  | some related => exact mapped related

theorem rel_some_right {α : Type} {R : α → α → Prop} {o : Option α} {b : α}
    (rel : Option.Rel R o (some b)) : ∃ a, o = some a ∧ R a b := by
  cases rel with
  | some related => exact ⟨_, rfl, related⟩

theorem rel_mono {α : Type} {R T : α → α → Prop} {o₁ o₂ : Option α} (rel : Option.Rel R o₁ o₂)
    (wider : ∀ {a b}, o₁ = some a → R a b → T a b) : Option.Rel T o₁ o₂ := by
  cases rel with
  | none => exact .none
  | some related => exact .some (wider rfl related)

theorem rel_flip {α : Type} {R : α → α → Prop} {o₁ o₂ : Option α} (rel : Option.Rel R o₁ o₂) :
    Option.Rel (fun b a => R a b) o₂ o₁ := by
  cases rel with
  | none => exact .none
  | some related => exact .some related

/-- Scopes with the same content, whose parents are paired. -/
structure Scope.Alike (S : ScopeId → ScopeId → Prop) (s₁ s₂ : Scope) : Prop where
  function : s₁.function = s₂.function
  vars : s₁.vars = s₂.vars
  defs : s₁.defs = s₂.defs
  captured : s₁.captured = s₂.captured
  parent : Option.Rel S s₁.parent s₂.parent

/-- The same call, made from paired scopes. -/
structure Frame.Alike (S : ScopeId → ScopeId → Prop) (f₁ f₂ : Frame) : Prop where
  pos : f₁.pos = f₂.pos
  function : f₁.function = f₂.function
  caller : S f₁.caller f₂.caller

theorem Scope.Alike.mono {S T : ScopeId → ScopeId → Prop} {s₁ s₂ : Scope} (alike : s₁.Alike S s₂)
    (wider : ∀ {p q}, s₁.parent = some p → S p q → T p q) : s₁.Alike T s₂ := by
  exact ⟨alike.function, alike.vars, alike.defs, alike.captured, rel_mono alike.parent wider⟩

/-- Texts that differ at most in the numbers of scopes. -/
inductive Renumbered : ByteArray → ByteArray → Prop where
  | same (b : ByteArray) : Renumbered b b
  | scope (m n : ScopeId) : Renumbered (" #" ++ toString m).toUTF8 (" #" ++ toString n).toUTF8
  | append {a b c d : ByteArray} (first : Renumbered a b) (second : Renumbered c d) :
      Renumbered (a ++ c) (b ++ d)

theorem Renumbered.symm {a b : ByteArray} (renumbered : Renumbered a b) : Renumbered b a := by
  induction renumbered with
  | same b => exact .same b
  | scope m n => exact .scope n m
  | append _ _ first second => exact .append first second

/-- A sink that takes no more. -/
def Sink.Full (s : Sink) : Prop := ∃ limit, s.limit = some limit ∧ limit ≤ s.bytes.size

/-- A sink with all of a text, or with its beginning if that fills it. -/
def Sink.Keeps (s : Sink) (text : ByteArray) : Prop :=
  ∃ rest, text = s.bytes ++ rest ∧ (rest = ByteArray.empty ∨ s.Full)

/-- Two sinks with texts that differ at most in the numbers of scopes. -/
def Sink.Alike (s₁ s₂ : Sink) : Prop :=
  ∃ text₁ text₂, Renumbered text₁ text₂ ∧ s₁.Keeps text₁ ∧ s₂.Keeps text₂

theorem Sink.Alike.symm {s₁ s₂ : Sink} (alike : s₁.Alike s₂) : s₂.Alike s₁ := by
  obtain ⟨text₁, text₂, renumbered, keeps₁, keeps₂⟩ := alike
  exact ⟨text₂, text₁, renumbered.symm, keeps₂, keeps₁⟩

namespace Interpreter

/-- An interpreter without its scopes, its heap and what depends on the time of collections. -/
def outward (it : Interpreter) : Interpreter :=
  { it with
    arena := {}, heap := {}, active := Arena.globalScope, frames := #[], retained := 0, threshold := 0
    diag := {} }

/-- The outermost `k` frames may differ, and with them what dumps say. -/
structure Agree (k : Nat) (S : ScopeId → ScopeId → Prop) (V : Value → Prop) (it₁ it₂ : Interpreter) :
    Prop where
  outward : it₁.outward = it₂.outward
  heap : it₁.heap.Alike it₂.heap
  carries : it₁.Carries (fun a => ∃ b, S a b) V
  unique : ∀ {a b a' b'}, S a b → S a' b' → (a = a' ↔ b = b')
  first : ∀ {a b}, S a b → it₁.arena.InUse a
  second : ∀ {a b}, S a b → it₂.arena.InUse b
  scope : ∀ {a b}, S a b → (it₁.arena.get a).Alike S (it₂.arena.get b)
  global : S Arena.globalScope Arena.globalScope
  active : S it₁.active it₂.active
  depth : it₁.frames.size = it₂.frames.size
  frames : List.Forall₂ (Frame.Alike S) (it₁.frames.toList.drop k) (it₂.frames.toList.drop k)
  closure : ∀ {ref}, V (.closure ref) →
    S (it₁.heap.closure ref).scope (it₂.heap.closure ref).scope ∧
      it₁.arena.Lasting (it₁.heap.closure ref).scope
  dumps : k = 0 → it₁.diag.Alike it₂.diag

section

variable {k : Nat} {S : ScopeId → ScopeId → Prop} {V : Value → Prop} {it₁ it₂ : Interpreter}

theorem Agree.diag (agree : Agree 0 S V it₁ it₂) : it₁.diag.Alike it₂.diag := agree.dumps rfl

theorem Agree.visible (agree : Agree k S V it₁ it₂) {α : Type} (f : Interpreter → α)
    (outer : ∀ it, f it.outward = f it) : f it₁ = f it₂ := by
  rw [← outer it₁, ← outer it₂, agree.outward]

theorem Agree.consts (agree : Agree k S V it₁ it₂) : it₁.consts = it₂.consts :=
  agree.visible Interpreter.consts fun _ => rfl

theorem Agree.lasting (agree : Agree k S V it₁ it₂) {a b : ScopeId} (paired : S a b)
    (lasting : it₁.arena.Lasting a) : it₂.arena.Lasting b := by
  refine ⟨agree.second paired, lasting.2.imp (agree.unique paired agree.global).mp fun captured => ?_⟩
  rw [← (agree.scope paired).captured]
  exact captured

theorem Agree.symm (agree : Agree k S V it₁ it₂) : Agree k (fun b a => S a b) V it₂ it₁ where
  outward := agree.outward.symm
  heap := agree.heap.symm
  carries := by
    have closed := agree.carries.heap
    have outside := agree.visible Interpreter.outside fun _ => rfl
    refine ⟨⟨closed.plain, ?_, ?_, ?_, ?_, ?_⟩, ⟨_, agree.active⟩, ⟨_, agree.global⟩, ?_, ?_, ?_, ?_⟩
    · intro ref v valid member
      exact closed.item valid (agree.heap.array ref ▸ member)
    · intro ref v valid member
      exact closed.entry valid (agree.heap.map ref ▸ member)
    · rw [← agree.heap.arrays]
      exact closed.newArrays
    · rw [← agree.heap.maps]
      exact closed.newMaps
    · rw [← agree.heap.size]
      exact closed.newClosures
    · rintro b p ⟨a, paired⟩ up
      obtain ⟨q, _, above⟩ := rel_some_right (up ▸ (agree.scope paired).parent)
      exact ⟨q, above⟩
    · rintro b v ⟨a, paired⟩ member
      exact agree.carries.var ⟨b, paired⟩ ((agree.scope paired).vars ▸ member)
    · rintro b ref ⟨a, paired⟩ member
      exact agree.carries.defn ⟨b, paired⟩ ((agree.scope paired).defs ▸ member)
    · intro v member
      exact agree.carries.outside (outside ▸ member)
  unique paired paired' := (agree.unique paired paired').symm
  first := agree.second
  second := agree.first
  scope paired := by
    obtain ⟨function, vars, defs, captured, parent⟩ := agree.scope paired
    exact ⟨function.symm, vars.symm, defs.symm, captured.symm, rel_flip parent⟩
  global := agree.global
  active := agree.active
  depth := agree.depth.symm
  frames := List.Forall₂.flip (agree.frames.imp fun _ _ alike =>
    ⟨alike.pos.symm, alike.function.symm, alike.caller⟩)
  closure valid := by
    obtain ⟨paired, lasting⟩ := agree.closure valid
    exact ⟨paired, agree.lasting paired lasting⟩
  dumps zero := (agree.dumps zero).symm

/-! ### Reading -/

/-- Paired scopes have chains of paired scopes. -/
theorem Agree.chain (agree : Agree k S V it₁ it₂) (wellFormed₁ : it₁.arena.WellFormed)
    (wellFormed₂ : it₂.arena.WellFormed) {a b : ScopeId} (paired : S a b) :
    List.Forall₂ (fun x y => S x.1 y.1 ∧ x.2.Alike S y.2) (it₁.arena.chain a)
      (it₂.arena.chain b) := by
  obtain ⟨n, height⟩ := wellFormed₁.rooted (agree.first paired)
  induction height generalizing b with
  | global =>
    have parents := (agree.scope paired).parent
    rw [wellFormed₁.globalTop] at parents
    obtain none : (it₂.arena.get b).parent = none := by
      generalize (it₂.arena.get b).parent = o at parents
      cases parents
      rfl
    rw [Arena.chain_eq wellFormed₁ (agree.first paired), wellFormed₁.globalTop,
      Arena.chain_eq wellFormed₂ (agree.second paired), none]
    exact .cons ⟨paired, agree.scope paired⟩ .nil
  | up parent above ih =>
    have parents := (agree.scope paired).parent
    rw [parent] at parents
    obtain ⟨q, up, above⟩ := rel_some_right (rel_flip parents)
    rw [Arena.chain_eq wellFormed₁ (agree.first paired), parent,
      Arena.chain_eq wellFormed₂ (agree.second paired), up]
    exact .cons ⟨paired, agree.scope paired⟩ (ih above)

theorem Agree.lookupFrom (agree : Agree k S V it₁ it₂) (wellFormed₁ : it₁.arena.WellFormed)
    (wellFormed₂ : it₂.arena.WellFormed) {a b : ScopeId} (paired : S a b) (name : String) :
    it₁.arena.lookup a name = it₂.arena.lookup b name := by
  refine findSome?_forall₂ (agree.chain wellFormed₁ wellFormed₂ paired) fun {x y} related => ?_
  show x.2.lookup name = y.2.lookup name
  rw [Scope.lookup, Scope.lookup, related.2.vars, related.2.defs]

theorem Agree.lookup (agree : Agree k S V it₁ it₂) (wellFormed₁ : it₁.arena.WellFormed)
    (wellFormed₂ : it₂.arena.WellFormed) (name : String) : it₁.lookup name = it₂.lookup name := by
  rw [Interpreter.lookup, Interpreter.lookup, agree.consts,
    agree.lookupFrom wellFormed₁ wellFormed₂ agree.active name]

theorem Agree.findClosure (agree : Agree k S V it₁ it₂) (wellFormed₁ : it₁.arena.WellFormed)
    (wellFormed₂ : it₂.arena.WellFormed) (name : String) :
    it₁.arena.findClosure it₁.active name = it₂.arena.findClosure it₂.active name := by
  refine findSome?_forall₂ (agree.chain wellFormed₁ wellFormed₂ agree.active)
    fun {x y} related => ?_
  show x.2.callable name = y.2.callable name
  rw [Scope.callable, Scope.callable, related.2.vars, related.2.defs]

/-- An assignment goes to paired scopes. -/
theorem Agree.binding (agree : Agree k S V it₁ it₂) (wellFormed₁ : it₁.arena.WellFormed)
    (wellFormed₂ : it₂.arena.WellFormed) (name : String) :
    S ((it₁.arena.findBinding it₁.active name).getD it₁.active)
      ((it₂.arena.findBinding it₂.active name).getD it₂.active) := by
  have found := find?_forall₂ (agree.chain wellFormed₁ wellFormed₂ agree.active)
    (p := fun x => x.2.vars.contains name) (q := fun y => y.2.vars.contains name)
    fun related => by rw [related.2.vars]
  exact rel_map_getD found (fun related => related.1) agree.active

/-! ### Storing -/

/-- A change on both sides that has nothing to do with scopes or values. -/
theorem Agree.update (agree : Agree k S V it₁ it₂) (f : Interpreter → Interpreter)
    (commutes : ∀ it, (f it).outward = f it.outward)
    (inner : ∀ it, (f it).arena = it.arena ∧ (f it).heap = it.heap ∧ (f it).active = it.active ∧
      (f it).frames = it.frames ∧ (f it).outside = it.outside ∧ (f it).diag = it.diag) :
    Agree k S V (f it₁) (f it₂) := by
  obtain ⟨arena₁, heap₁, active₁, frames₁, outside₁, diag₁⟩ := inner it₁
  obtain ⟨arena₂, heap₂, active₂, frames₂, _, diag₂⟩ := inner it₂
  have outward : (f it₁).outward = (f it₂).outward := by rw [commutes, commutes, agree.outward]
  have carries : (f it₁).Carries (fun a => ∃ b, S a b) V :=
    agree.carries.transfer arena₁ active₁ outside₁ (heap₁ ▸ agree.carries.heap)
  refine ⟨outward, ?_, carries, agree.unique, ?_, ?_, ?_, agree.global, ?_, ?_, ?_, ?_, ?_⟩
  · rw [heap₁, heap₂]
    exact agree.heap
  · rw [arena₁]
    exact agree.first
  · rw [arena₂]
    exact agree.second
  · rw [arena₁, arena₂]
    exact agree.scope
  · rw [active₁, active₂]
    exact agree.active
  · rw [frames₁, frames₂]
    exact agree.depth
  · rw [frames₁, frames₂]
    exact agree.frames
  · rw [heap₁, heap₂, arena₁]
    exact agree.closure
  · rw [diag₁, diag₂]
    exact agree.dumps

theorem Agree.setHeap (agree : Agree k S V it₁ it₂) {h₁ h₂ : Heap} (closed : h₁.Closed V)
    (alike : h₁.Alike h₂) (first : h₁.closures = it₁.heap.closures)
    (second : h₂.closures = it₂.heap.closures) :
    Agree k S V { it₁ with heap := h₁ } { it₂ with heap := h₂ } :=
  { agree with
    heap := alike
    carries := agree.carries.transfer rfl rfl rfl closed
    closure := by
      intro ref valid
      simpa only [Heap.closure, first, second] using agree.closure valid }

theorem Agree.modify (agree : Agree k S V it₁ it₂) {a b : ScopeId} (paired : S a b) {f : Scope → Scope}
    (parent : ∀ s, (f s).parent = s.parent) (captured : ∀ s, s.captured = true → (f s).captured = true)
    (alike : ∀ {s₁ s₂ : Scope}, s₁.Alike S s₂ → (f s₁).Alike S (f s₂))
    (var : ∀ {s : Scope} {v}, v ∈ (f s).vars.values → v ∈ s.vars.values ∨ V v)
    (defn : ∀ {s : Scope} {ref}, ref ∈ (f s).defs.values → ref ∈ s.defs.values ∨ V (.closure ref)) :
    Agree k S V { it₁ with arena := it₁.arena.modify a f } { it₂ with arena := it₂.arena.modify b f } :=
  { agree with
    carries := agree.carries.modify a parent var defn
    first := fun related => (Arena.inUse_modify it₁.arena a _ f).mpr (agree.first related)
    second := fun related => (Arena.inUse_modify it₂.arena b _ f).mpr (agree.second related)
    scope := by
      intro c d related
      show ((it₁.arena.modify a f).get c).Alike S ((it₂.arena.modify b f).get d)
      by_cases same : c = a
      · have same' := (agree.unique related paired).mp same
        subst same same'
        rw [Arena.get_modify_same _ f (agree.first paired).1,
          Arena.get_modify_same _ f (agree.second paired).1]
        exact alike (agree.scope paired)
      · have differs := fun same' => same ((agree.unique related paired).mpr same')
        rw [Arena.get_modify_other _ f same, Arena.get_modify_other _ f differs]
        exact agree.scope related
    closure := by
      intro ref valid
      obtain ⟨related, inUse, lasts⟩ := agree.closure valid
      refine ⟨related, (Arena.inUse_modify it₁.arena a _ f).mpr inUse, lasts.imp_right fun before => ?_⟩
      exact Arena.get_modify_elim (P := fun _ s => s.captured = true) before fun _ => captured _ before }

theorem Agree.assign (agree : Agree k S V it₁ it₂) (wellFormed₁ : it₁.arena.WellFormed)
    (wellFormed₂ : it₂.arena.WellFormed) (name : String) {v : Value} (valid : V v) :
    Agree k S V (it₁.assign name v) (it₂.assign name v) := by
  refine agree.modify (agree.binding wellFormed₁ wellFormed₂ name) (fun _ => rfl)
    (fun _ before => before) (fun alike => ?_) (fun member => ?_) Or.inl
  · obtain ⟨function, vars, defs, captured, parent⟩ := alike
    exact ⟨function, by rw [vars], defs, captured, parent⟩
  · rcases Dict.mem_values_insert member with rfl | old
    · exact Or.inr valid
    · exact Or.inl old

theorem Agree.makeClosure (agree : Agree k S V it₁ it₂) (name : String) (params : List String)
    (body : List Syntax.Command) :
    (it₁.makeClosure name params body).1 = (it₂.makeClosure name params body).1 ∧
      Agree k S V (it₁.makeClosure name params body).2 (it₂.makeClosure name params body).2 := by
  have inUse := agree.first agree.active
  have captured : Agree k S V { it₁ with arena := it₁.arena.capture it₁.active }
      { it₂ with arena := it₂.arena.capture it₂.active } := by
    refine agree.modify agree.active (fun _ => rfl) (fun _ _ => rfl) (fun alike => ?_) Or.inl Or.inl
    exact ⟨alike.function, alike.vars, alike.defs, rfl, alike.parent⟩
  refine ⟨agree.heap.size, { captured with
    outward := agree.outward
    heap := agree.heap.newClosure name params body it₁.active it₂.active
    carries := agree.carries.makeClosure name params body
    closure := ?_ }⟩
  intro ref valid
  show S ((it₁.heap.newClosure _).2.closure ref).scope ((it₂.heap.newClosure _).2.closure ref).scope ∧
    (it₁.arena.capture it₁.active).Lasting ((it₁.heap.newClosure _).2.closure ref).scope
  rw [Heap.closure_newClosure, Heap.closure_newClosure, agree.heap.size]
  split
  · refine ⟨agree.active, (Arena.inUse_modify it₁.arena _ _ _).mpr inUse, Or.inr ?_⟩
    exact congrArg Scope.captured (Arena.get_modify_same it₁.arena _ inUse.1)
  · exact captured.closure valid

theorem Agree.define (agree : Agree k S V it₁ it₂) (name : String) (params : List String)
    (body : List Syntax.Command) :
    Agree k S V (it₁.define name params body) (it₂.define name params body) := by
  obtain ⟨same, made⟩ := agree.makeClosure name params body
  have stored : it₂.define name params body =
      { (it₂.makeClosure name params body).2 with
        arena := (it₂.makeClosure name params body).2.arena.setDef
          (it₂.makeClosure name params body).2.active name (it₁.makeClosure name params body).1 } := by
    rw [same]
    rfl
  rw [stored]
  refine made.modify made.active (fun _ => rfl) (fun _ before => before) (fun alike => ?_) Or.inl
    fun member => ?_
  · exact ⟨alike.function, alike.vars, by rw [alike.defs], alike.captured, alike.parent⟩
  · rcases Dict.mem_values_insert member with rfl | old
    · exact Or.inr (agree.carries.heap.newClosures (Nat.le_refl _))
    · exact Or.inl old

theorem Agree.makeLambda (agree : Agree k S V it₁ it₂) (params : List String)
    (body : List Syntax.Command) :
    (it₁.makeLambda params body).1 = (it₂.makeLambda params body).1 ∧
      Agree k S V (it₁.makeLambda params body).2 (it₂.makeLambda params body).2 := by
  have lambdas : it₁.lambdas = it₂.lambdas := agree.visible Interpreter.lambdas fun _ => rfl
  unfold Interpreter.makeLambda
  rw [← lambdas]
  obtain ⟨same, made⟩ := agree.makeClosure ("_anon_" ++ toString it₁.lambdas) params body
  exact ⟨congrArg Value.closure same, made.update (fun it => { it with lambdas := it.lambdas + 1 })
    (fun _ => rfl) fun _ => ⟨rfl, rfl, rfl, rfl, rfl, rfl⟩⟩

theorem Agree.constant (agree : Agree k S V it₁ it₂) (name : String) {v : Value} (valid : V v) :
    Agree k S V { it₁ with consts := it₁.consts.insert name v }
      { it₂ with consts := it₂.consts.insert name v } :=
  { agree with
    outward := congrArg (fun it : Interpreter => { it with consts := it.consts.insert name v })
      agree.outward
    carries := agree.carries.constant name valid }

theorem Agree.keep (agree : Agree k S V it₁ it₂) (slot : Nat) {v : Value} (valid : V v) :
    Agree k S V (it₁.keep slot v) (it₂.keep slot v) :=
  { agree with
    outward := congrArg (fun it : Interpreter => it.keep slot v) agree.outward
    carries := agree.carries.keep slot valid }

theorem Agree.drop (agree : Agree k S V it₁ it₂) (slot : Nat) :
    Agree k S V (it₁.drop slot) (it₂.drop slot) :=
  { agree with
    outward := congrArg (fun it : Interpreter => it.drop slot) agree.outward
    carries := agree.carries.drop slot }

/-! ### Calls -/

theorem Agree.enter (agree : Agree k S V it₁ it₂) (wellFormed₁ : it₁.arena.WellFormed)
    (wellFormed₂ : it₂.arena.WellFormed) {c₁ c₂ : Closure} (name : c₁.name = c₂.name)
    (params : c₁.params = c₂.params) (paired : S c₁.scope c₂.scope) {args : List Value}
    (valid : ∀ v ∈ args, V v) (pos : Position) :
    Agree k (fun a b => S a b ∨ a = (it₁.enter c₁ args pos).1 ∧ b = (it₂.enter c₂ args pos).1) V
      (it₁.enter c₁ args pos).2 (it₂.enter c₂ args pos).2 := by
  have fresh₁ : ¬ it₁.arena.InUse (it₁.enter c₁ args pos).1 := Arena.push_fresh _ _ _
  have fresh₂ : ¬ it₂.arena.InUse (it₂.enter c₂ args pos).1 := Arena.push_fresh _ _ _
  have new₁ := get_enter_new wellFormed₁ c₁ args pos
  have new₂ := get_enter_new wellFormed₂ c₂ args pos
  refine ⟨agree.outward, agree.heap, ?_, ?_, ?_, ?_, ?_, Or.inl agree.global, Or.inr ⟨rfl, rfl⟩, ?_, ?_, ?_,
    agree.dumps⟩
  · refine ⟨agree.carries.heap, ⟨_, Or.inr ⟨rfl, rfl⟩⟩, ⟨_, Or.inl agree.global⟩, ?_, ?_, ?_,
      agree.carries.outside⟩
    · rintro a p ⟨b, before | ⟨rfl, rfl⟩⟩ up
      · rw [get_enter_inUse (agree.first before)] at up
        obtain ⟨q, above⟩ := agree.carries.parent ⟨b, before⟩ up
        exact ⟨q, Or.inl above⟩
      · rw [new₁] at up
        cases up
        exact ⟨_, Or.inl paired⟩
    · rintro a v ⟨b, before | ⟨rfl, rfl⟩⟩ member
      · exact agree.carries.var ⟨b, before⟩ (get_enter_inUse (agree.first before) ▸ member)
      · rw [new₁] at member
        rcases Dict.mem_values_insertAll member with argument | none
        · obtain ⟨e, bound, rfl⟩ := List.mem_map.mp argument
          exact valid _ (List.of_mem_zip bound).2
        · cases none
    · rintro a ref ⟨b, before | ⟨rfl, rfl⟩⟩ member
      · exact agree.carries.defn ⟨b, before⟩ (get_enter_inUse (agree.first before) ▸ member)
      · rw [new₁] at member
        cases member
  · rintro a b a' b' (before | ⟨rfl, rfl⟩) (before' | ⟨rfl, rfl⟩)
    · exact agree.unique before before'
    · exact ⟨fun same => absurd (same ▸ agree.first before) fresh₁,
        fun same => absurd (same ▸ agree.second before) fresh₂⟩
    · exact ⟨fun same => absurd (same ▸ agree.first before') fresh₁,
        fun same => absurd (same ▸ agree.second before') fresh₂⟩
    · exact ⟨fun _ => rfl, fun _ => rfl⟩
  · rintro a b (before | ⟨rfl, rfl⟩)
    · exact (inUse_enter wellFormed₁ c₁ args pos a).mpr (Or.inl (agree.first before))
    · exact (inUse_enter wellFormed₁ c₁ args pos _).mpr (Or.inr rfl)
  · rintro a b (before | ⟨rfl, rfl⟩)
    · exact (inUse_enter wellFormed₂ c₂ args pos b).mpr (Or.inl (agree.second before))
    · exact (inUse_enter wellFormed₂ c₂ args pos _).mpr (Or.inr rfl)
  · rintro a b (before | ⟨rfl, rfl⟩)
    · rw [get_enter_inUse (agree.first before), get_enter_inUse (agree.second before)]
      exact (agree.scope before).mono fun _ => Or.inl
    · rw [new₁, new₂]
      exact ⟨name, by rw [params], rfl, rfl, .some (Or.inl paired)⟩
  · simpa [Interpreter.enter] using agree.depth
  · have pushed : Frame.Alike (fun a b => S a b ∨ a = (it₁.enter c₁ args pos).1 ∧
        b = (it₂.enter c₂ args pos).1) ⟨pos, c₁.name, it₁.active⟩ ⟨pos, c₂.name, it₂.active⟩ :=
      ⟨rfl, name, Or.inl agree.active⟩
    have before := agree.frames.imp fun _ _ alike =>
      (⟨alike.pos, alike.function, Or.inl alike.caller⟩ : Frame.Alike (fun a b => S a b ∨
        a = (it₁.enter c₁ args pos).1 ∧ b = (it₂.enter c₂ args pos).1) _ _)
    simp only [Interpreter.enter, Array.toList_push, List.drop_append, Array.length_toList, agree.depth]
    exact List.rel_append before (List.forall₂_drop _ (.cons pushed .nil))
  · intro ref valid
    obtain ⟨related, lasting⟩ := agree.closure valid
    exact ⟨Or.inl related, lasting_enter wellFormed₁ c₁ args pos lasting⟩

/-- What is left of an agreement when both sides let go of scopes, except for those in `K`. -/
theorem Agree.restrict (agree : Agree k S V it₁ it₂) {it₁' it₂' : Interpreter} {V' : Value → Prop}
    {K : ScopeId → Prop} (outward : it₁'.outward = it₂'.outward)
    (heap₁ : it₁'.heap = it₁.heap) (heap₂ : it₂'.heap = it₂.heap)
    (diag₁ : it₁'.diag = it₁.diag) (diag₂ : it₂'.diag = it₂.diag)
    (carries : it₁'.Carries (fun a => ∃ b, S a b ∧ K a) V')
    (first : ∀ {a b}, S a b → K a → it₁'.arena.InUse a ∧ it₁'.arena.get a = it₁.arena.get a)
    (second : ∀ {a b}, S a b → K a → it₂'.arena.InUse b ∧ it₂'.arena.get b = it₂.arena.get b)
    (global : K Arena.globalScope) (active : S it₁'.active it₂'.active ∧ K it₁'.active)
    (depth : it₁'.frames.size = it₂'.frames.size)
    (frames : List.Forall₂ (Frame.Alike fun a b => S a b ∧ K a) (it₁'.frames.toList.drop k)
      (it₂'.frames.toList.drop k))
    (closure : ∀ {ref}, V' (.closure ref) → V (.closure ref) ∧ K (it₁.heap.closure ref).scope) :
    Agree k (fun a b => S a b ∧ K a) V' it₁' it₂' := by
  refine ⟨outward, ?_, carries, ?_, fun paired => (first paired.1 paired.2).1,
    fun paired => (second paired.1 paired.2).1, ?_, ⟨agree.global, global⟩, active, depth, frames, ?_, ?_⟩
  · rw [heap₁, heap₂]
    exact agree.heap
  · exact fun paired paired' => agree.unique paired.1 paired'.1
  · rintro a b ⟨paired, kept⟩
    rw [(first paired kept).2, (second paired kept).2]
    refine (agree.scope paired).mono fun up above => ⟨above, ?_⟩
    obtain ⟨_, _, keptAbove⟩ := carries.parent ⟨b, paired, kept⟩ ((first paired kept).2 ▸ up)
    exact keptAbove
  · intro ref valid
    obtain ⟨before, kept⟩ := closure valid
    obtain ⟨paired, _, lasts⟩ := agree.closure before
    rw [heap₁, heap₂]
    refine ⟨⟨paired, kept⟩, (first paired kept).1, lasts.imp_right fun captured => ?_⟩
    rw [(first paired kept).2]
    exact captured
  · rw [diag₁, diag₂]
    exact agree.dumps

/-- At the end of a call both sides free its scope, or neither does. -/
theorem Agree.leave (agree : Agree k S V it₁ it₂) (wellFormed₁ : it₁.arena.WellFormed)
    (distinct : it₁.roots.Nodup) {below₁ : List Frame} {last₁ : Frame}
    (frames₁ : it₁.frames.toList = below₁ ++ [last₁]) (inner : k ≤ below₁.length) :
    Agree k (fun a b => S a b ∧ it₁.Stays a) V (it₁.leave it₁.active) (it₂.leave it₂.active) := by
  have above : it₁.frames.toList.drop k = below₁.drop k ++ [last₁] := by
    rw [frames₁, List.drop_append_of_le_length inner]
  obtain ⟨below₂, last₂, above₂, below, last⟩ := forall₂_concat_left (above ▸ agree.frames)
  have frames₂ : it₂.frames.toList = it₂.frames.toList.take k ++ below₂ ++ [last₂] := by
    rw [List.append_assoc, ← above₂, List.take_append_drop]
  have outer : (it₂.frames.toList.take k).length = k := by
    have size := congrArg List.length frames₁
    rw [Array.length_toList, agree.depth, List.length_append] at size
    rw [List.length_take, Array.length_toList, size]
    exact Nat.min_eq_left (Nat.le_trans inner (Nat.le_add_right _ _))
  obtain ⟨active₁, popped₁⟩ := leave_frames it₁.active frames₁
  obtain ⟨active₂, popped₂⟩ := leave_frames it₂.active frames₂
  have inUse₁ := agree.first agree.active
  have inUse₂ := agree.second agree.active
  have caller : ∀ {id}, id ∈ (it₁.leave it₁.active).roots → it₁.Stays id := by
    have perm : it₁.roots.Perm (it₁.active :: (it₁.leave it₁.active).roots) := roots_leave frames₁
    have absent := (List.nodup_cons.mp (perm.nodup_iff.mp distinct)).1
    intro id member
    exact Or.inl fun same => absent (same ▸ member)
  have active : S (it₁.leave it₁.active).active (it₂.leave it₂.active).active := by
    rw [active₁, active₂]
    exact last.caller
  refine agree.restrict agree.outward rfl rfl rfl rfl ?_ ?_ ?_ ?_ ⟨active, caller List.mem_cons_self⟩
    ?_ ?_ ?_
  · refine ⟨agree.carries.heap, ⟨_, active, caller List.mem_cons_self⟩, ⟨_, agree.global, ?_⟩, ?_, ?_, ?_,
      agree.carries.outside⟩
    · exact stays_of_lasting ⟨wellFormed₁.globalInUse, Or.inl rfl⟩
    · rintro a p ⟨b, paired, stays⟩ up
      rw [get_leave inUse₁ stays] at up
      obtain ⟨q, above⟩ := agree.carries.parent ⟨b, paired⟩ up
      exact ⟨q, above, stays_of_lasting (wellFormed₁.parent (agree.first paired) up)⟩
    · rintro a v ⟨b, paired, stays⟩ member
      exact agree.carries.var ⟨b, paired⟩ (get_leave inUse₁ stays ▸ member)
    · rintro a ref ⟨b, paired, stays⟩ member
      exact agree.carries.defn ⟨b, paired⟩ (get_leave inUse₁ stays ▸ member)
  · intro a b paired stays
    exact ⟨(inUse_leave inUse₁).mpr ⟨agree.first paired, stays⟩, get_leave inUse₁ stays⟩
  · intro a b paired stays
    have stays₂ : it₂.Stays b := stays.imp
      (fun differs same => differs ((agree.unique paired agree.active).mpr same))
      (agree.lasting agree.active)
    exact ⟨(inUse_leave inUse₂).mpr ⟨agree.second paired, stays₂⟩, get_leave inUse₂ stays₂⟩
  · exact stays_of_lasting ⟨wellFormed₁.globalInUse, Or.inl rfl⟩
  · simp [Interpreter.leave, agree.depth]
  · have callers : ∀ f ∈ below₁.drop k, it₁.Stays f.caller := by
      intro f member
      refine caller (List.mem_cons_of_mem _ (List.mem_map_of_mem ?_))
      rw [popped₁]
      exact List.mem_of_mem_drop member
    rw [popped₁, popped₂, List.drop_left' outer]
    refine ((List.forall₂_and_left _ below₂).mpr ⟨callers, below⟩).imp ?_
    rintro _ _ ⟨stays, alike⟩
    exact ⟨alike.pos, alike.function, alike.caller, stays⟩
  · intro ref valid
    exact ⟨valid, stays_of_lasting (agree.closure valid).2⟩

/-! ### Collections -/

end

end Interpreter

end RetroScript
