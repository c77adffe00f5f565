import RetroScript.Proofs.Canvas

/-!
# The video memory at any time

Whatever is asked of a video memory, its canvas shows whole logical pixels and its frame is the one that
the last update made: `memory_represents`. No cell or byte outside the buffers is ever touched: the
versions of the operations that check every index never fail.
-/

namespace RetroScript.Video

/-! ### Requests -/

/-- What can be asked of a video memory. -/
inductive Change where
  | mode (mode : Mode)
  | clear
  | draw (s : Stroke)
  | update

def Change.isUpdate : Change → Bool
  | .update => true
  | _ => false

namespace Memory

def apply (m : Memory) : Change → Memory
  | .mode mode => m.setMode mode
  | .clear => m.clear
  | .draw s => m.draw s
  | .update => m.update

def applyAll (m : Memory) (changes : List Change) : Memory := changes.foldl apply m

theorem applyAll_append (m : Memory) (earlier later : List Change) :
    m.applyAll (earlier ++ later) = (m.applyAll earlier).applyAll later := List.foldl_append

/-! ### Whole logical pixels -/

def Coherent (m : Memory) : Prop :=
  ∀ i j (hi : i < width * height) (hj : j < width * height),
    m.mode.owner i = m.mode.owner j → m.pixels[i] = m.pixels[j]

theorem coherent_of_blank {m : Memory} (blank : m.pixels = Picture.blank) : m.Coherent := by
  intro i j hi hj _
  simp only [blank, Picture.blank, Vector.getElem_replicate]

theorem Coherent.draw {m : Memory} (coherent : m.Coherent) (s : Stroke) : (m.draw s).Coherent := by
  intro i j hi hj same
  rw [(m.draw_keeps s).1] at same
  rw [m.getElem_draw s hi, m.getElem_draw s hj, same, coherent i j hi hj same]

theorem Coherent.apply {m : Memory} (coherent : m.Coherent) (c : Change) : (m.apply c).Coherent := by
  cases c with
  | mode mode => exact coherent_of_blank rfl
  | clear => exact coherent_of_blank rfl
  | draw s => exact coherent.draw s
  | update => exact coherent

theorem Coherent.applyAll {m : Memory} (coherent : m.Coherent) (changes : List Change) :
    (m.applyAll changes).Coherent := by
  induction changes generalizing m with
  | nil => exact coherent
  | cons c changes ih => exact ih (coherent.apply c)

end Memory

theorem cell_inside (x : Fin width) (y : Fin height) : y * width + x < width * height := by
  obtain ⟨x, column⟩ := x
  obtain ⟨y, row⟩ := y
  unfold width height at *
  omega

def Picture.cell (picture : Picture) (x : Fin width) (y : Fin height) : Color :=
  picture.get ⟨y * width + x, cell_inside x y⟩

/-- The logical pixel that a physical pixel is part of. -/
def Mode.logical (m : Mode) (x : Fin width) (y : Fin height) : Point := ⟨(x / m.pixelWidth : Nat), y⟩

theorem Mode.owner_cell (m : Mode) (x : Fin width) (y : Fin height) :
    m.owner (y * width + x) = m.logical x y := by
  have column : (y * width + x) % width = (x : Nat) := by
    rw [Nat.mul_comm, Nat.mul_add_mod, Nat.mod_eq_of_lt x.isLt]
  have row : (y * width + x) / width = (y : Nat) := by
    rw [Nat.mul_comm, Nat.mul_add_div (by decide), Nat.div_eq_of_lt x.isLt, Nat.add_zero]
  rw [owner, column, row, logical]

theorem Mode.onCanvas_logical (m : Mode) (x : Fin width) (y : Fin height) : m.OnCanvas (m.logical x y) := by
  rw [← m.owner_cell]
  exact m.onCanvas_owner (cell_inside x y)

namespace Memory

theorem Coherent.pixel? {m : Memory} (coherent : m.Coherent) (x : Fin width) (y : Fin height) :
    m.pixel? (m.mode.logical x y) = some (m.pixels.cell x y) := by
  have onCanvas := m.mode.onCanvas_logical x y
  have inside := Mode.offset_lt onCanvas
  have owner : m.mode.owner (m.mode.offset (m.mode.logical x y)) = m.mode.owner (y * width + x) := by
    rw [Mode.owner_offset onCanvas, m.mode.owner_cell]
  rw [m.pixel?_eq onCanvas]
  exact congrArg some (coherent _ _ inside (cell_inside x y) owner)

theorem Coherent.paired {m : Memory} (coherent : m.Coherent) (wide : m.mode = .multiColor) {x x' : Fin width}
    (neighbours : x.val / 2 = x'.val / 2) (y : Fin height) : m.pixels.cell x y = m.pixels.cell x' y := by
  apply coherent _ _ (cell_inside x y) (cell_inside x' y)
  rw [m.mode.owner_cell, m.mode.owner_cell, wide]
  simp only [Mode.logical, Mode.pixelWidth, neighbours]

/-! ### Updates -/

theorem updates_apply (m : Memory) (c : Change) :
    (m.apply c).updates = m.updates + if c.isUpdate then 1 else 0 := by
  cases c with
  | draw s => exact (m.draw_keeps s).2.2
  | _ => rfl

theorem updates_applyAll (m : Memory) (changes : List Change) :
    (m.applyAll changes).updates = m.updates + changes.countP Change.isUpdate := by
  induction changes generalizing m with
  | nil => rfl
  | cons c changes ih =>
    show ((m.apply c).applyAll changes).updates = _
    rw [ih, updates_apply, List.countP_cons]
    omega

theorem shown_applyAll (m : Memory) {changes : List Change} (none : ∀ c ∈ changes, c.isUpdate = false) :
    (m.applyAll changes).shown = m.shown := by
  induction changes generalizing m with
  | nil => rfl
  | cons c changes ih =>
    have kept : (m.apply c).shown = m.shown := by
      cases c with
      | draw s => exact (m.draw_keeps s).2.1
      | update => cases none _ List.mem_cons_self
      | _ => rfl
    have later : ∀ c ∈ changes, c.isUpdate = false := fun c member => none c (List.mem_cons_of_mem _ member)
    exact (ih (m.apply c) later).trans kept

/-- What an update shows at a physical pixel: the color of its logical pixel, or the background. -/
def Shows (m : Memory) (x : Fin width) (y : Fin height) (c : Color) : Prop :=
  if m.mode = .text then c = background else m.pixel? (m.mode.logical x y) = some c

theorem Coherent.shows_update {m : Memory} (coherent : m.Coherent) (x : Fin width) (y : Fin height) :
    m.Shows x y (m.update.shown.cell x y) := by
  unfold Shows update
  by_cases text : m.mode = .text
  · simp only [text, if_true]
    exact Vector.getElem_replicate _
  · simp only [text, if_false]
    exact coherent.pixel? x y

end Memory

/-! ### The bytes of the frame -/

def colorBytes (c : Color) : List UInt8 := [(palette.get c).1, (palette.get c).2.1, (palette.get c).2.2]

theorem foldl_pushColor (colors : List Color) (bytes : ByteArray) :
    (colors.foldl pushColor bytes).data.toList = bytes.data.toList ++ colors.flatMap colorBytes := by
  induction colors generalizing bytes with
  | nil => simp
  | cons c colors ih =>
    rw [List.foldl_cons, ih, List.flatMap_cons]
    simp [pushColor, colorBytes, Vector.get]

theorem Memory.frame_toList (m : Memory) : m.frame.data.toList = m.shown.toList.flatMap colorBytes := by
  unfold frame
  rw [← Vector.foldl_toList, foldl_pushColor]
  rfl

theorem length_flatMap_colorBytes (colors : List Color) :
    (colors.flatMap colorBytes).length = 3 * colors.length := by
  induction colors with
  | nil => rfl
  | cons c colors ih =>
    rw [List.flatMap_cons, List.length_append, ih, List.length_cons]
    simp only [colorBytes, List.length_cons, List.length_nil]
    omega

theorem Memory.size_frame (m : Memory) : m.frame.size = 3 * (width * height) := by
  rw [← ByteArray.size_data, ← Array.length_toList, m.frame_toList, length_flatMap_colorBytes,
    Vector.length_toList]

theorem drop_flatMap_colorBytes (colors : List Color) (i : Nat) :
    (colors.flatMap colorBytes).drop (3 * i) = (colors.drop i).flatMap colorBytes := by
  induction i generalizing colors with
  | zero => rfl
  | succ i ih =>
    cases colors with
    | nil => simp
    | cons c colors => exact ih colors

def frameBytes (frame : ByteArray) (x : Fin width) (y : Fin height) : List UInt8 :=
  (frame.data.toList.drop (3 * (y * width + x))).take 3

theorem Memory.frameBytes_frame (m : Memory) (x : Fin width) (y : Fin height) :
    frameBytes m.frame x y = colorBytes (m.shown.cell x y) := by
  have inside : y * width + x < m.shown.toList.length := by
    rw [Vector.length_toList]
    exact cell_inside x y
  rw [frameBytes, m.frame_toList, drop_flatMap_colorBytes, List.drop_eq_getElem_cons inside,
    List.flatMap_cons, List.take_append_of_le_length (by simp [colorBytes]), Vector.getElem_toList]
  rfl

/-! ### Checked indexes -/

/-- Colors a physical pixel; none if there is no such pixel. -/
def Picture.put? (c : Color) (picture : Picture) (i : Nat) : Option Picture :=
  if inside : i < width * height then some (picture.set i c inside) else none

/-- `setPixel`, where an index outside the canvas is a failure. -/
def Memory.setPixel? (c : Color) (m : Memory) (p : Point) : Option Memory :=
  if m.mode.OnCanvas p then
    ((List.range' (m.mode.offset p) m.mode.pixelWidth).foldlM (Picture.put? c) m.pixels).map
      ({ m with pixels := · })
  else some m

def putByte? (frame : ByteArray) (i : Nat) (b : UInt8) : Option ByteArray :=
  if inside : i < frame.size then some (frame.set i b inside) else none

def putColor? (frame : ByteArray) (i : Nat) (c : Color) : Option ByteArray := do
  let frame ← putByte? frame (3 * i) (palette.get c).1
  let frame ← putByte? frame (3 * i + 1) (palette.get c).2.1
  putByte? frame (3 * i + 2) (palette.get c).2.2

/-- Writes colors over a frame, from pixel `i` on. -/
def overwrite? (frame : ByteArray) (i : Nat) : List Color → Option ByteArray
  | [] => some frame
  | c :: colors => (putColor? frame i c).bind fun frame => overwrite? frame (i + 1) colors

structure Buffered where
  memory : Memory
  frame : ByteArray

/-- `apply`, where an index outside a buffer is a failure. An update goes over the frame before it. -/
def Buffered.apply? (b : Buffered) : Change → Option Buffered
  | .draw s =>
    ((s.shape.points b.memory.mode).foldlM (Memory.setPixel? s.index) b.memory).map (⟨·, b.frame⟩)
  | .update => (overwrite? b.frame 0 b.memory.update.shown.toList).map (⟨b.memory.update, ·⟩)
  | c => some ⟨b.memory.apply c, b.frame⟩

theorem Mode.offset_add_le {m : Mode} {p : Point} (onCanvas : m.OnCanvas p) :
    m.offset p + m.pixelWidth ≤ width * height := by
  cases m <;> simp only [OnCanvas, offset, columns, pixelWidth, width, height] at onCanvas ⊢ <;> omega

theorem Picture.put?_eq (c : Color) (picture : Picture) {i : Nat} (inside : i < width * height) :
    picture.put? c i = some (picture.setIfInBounds i c) := by
  rw [put?, dif_pos inside]
  exact congrArg some (Vector.ext fun j _ => by rw [Vector.getElem_set, Vector.getElem_setIfInBounds])

namespace Memory

theorem setPixel?_eq (c : Color) (m : Memory) (p : Point) : m.setPixel? c p = some (m.setPixel p c) := by
  unfold setPixel? setPixel
  by_cases onCanvas : m.mode.OnCanvas p
  · have inside := Mode.offset_add_le onCanvas
    rw [if_pos onCanvas, if_pos onCanvas]
    generalize m.mode.offset p = i at inside
    -- A wide pixel has a second cell; everywhere else the first one is all.
    have first : i < width * height := by
      cases mode : m.mode <;> simp only [mode, Mode.pixelWidth] at inside <;> omega
    cases mode : m.mode with
    | multiColor =>
      rw [mode] at inside
      simp only [Mode.pixelWidth, List.range'_succ, List.foldlM_cons, Picture.put?_eq c _ first]
      simp [Picture.put?_eq c _ (show i + 1 < width * height from inside)]
    | _ => simp [Mode.pixelWidth, Picture.put?_eq c _ first]
  · rw [if_neg onCanvas, if_neg onCanvas]

theorem foldlM_setPixel? (c : Color) (m : Memory) (points : List Point) :
    points.foldlM (setPixel? c) m = some (m.paint points c) := by
  unfold paint
  induction points generalizing m with
  | nil => rfl
  | cons p points ih =>
    rw [List.foldlM_cons, setPixel?_eq]
    exact ih (m.setPixel p c)

end Memory

theorem putByte?_eq {front rest : List UInt8} {i : Nat} (place : front.length = i) (a b : UInt8) :
    putByte? ⟨(front ++ a :: rest).toArray⟩ i b = some ⟨((front ++ [b]) ++ rest).toArray⟩ := by
  have inside : i < (ByteArray.mk (front ++ a :: rest).toArray).size := by
    show i < (front ++ a :: rest).toArray.size
    simp [← place]
  rw [putByte?, dif_pos inside]
  simp [ByteArray.set, ← place]

theorem putColor?_eq {front rest : List UInt8} {i : Nat} (place : front.length = 3 * i) (c : Color)
    (a b d : UInt8) :
    putColor? ⟨(front ++ a :: b :: d :: rest).toArray⟩ i c =
      some ⟨((front ++ colorBytes c) ++ rest).toArray⟩ := by
  have second : (front ++ [(palette.get c).1]).length = 3 * i + 1 := by rw [List.length_append, place]; rfl
  have third : (front ++ [(palette.get c).1] ++ [(palette.get c).2.1]).length = 3 * i + 2 := by
    rw [List.length_append, second]
    rfl
  rw [putColor?, putByte?_eq place]
  simp only [Option.bind_eq_bind, Option.bind_some, putByte?_eq second, putByte?_eq third]
  simp [colorBytes]

theorem overwrite?_eq (colors : List Color) {front back : List UInt8} {i : Nat} (place : front.length = 3 * i)
    (room : back.length = 3 * colors.length) :
    overwrite? ⟨(front ++ back).toArray⟩ i colors =
      some ⟨(front ++ colors.flatMap colorBytes).toArray⟩ := by
  induction colors generalizing front back i with
  | nil =>
    obtain rfl := List.eq_nil_of_length_eq_zero room
    rfl
  | cons c colors ih =>
    -- Three bytes go for each color, so the room says that they are there.
    match back, room with
    | a :: b :: d :: back, room =>
      have place' : (front ++ colorBytes c).length = 3 * (i + 1) := by
        rw [List.length_append, place]
        rfl
      have room' : back.length = 3 * colors.length := by
        simp only [List.length_cons] at room
        omega
      rw [overwrite?, putColor?_eq place, Option.bind_some, ih place' room', List.flatMap_cons,
        List.append_assoc]

theorem Memory.overwrite?_frame (m : Memory) {frame : ByteArray} (size : frame.size = 3 * (width * height)) :
    overwrite? frame 0 m.shown.toList = some m.frame := by
  have room : frame.data.toList.length = 3 * m.shown.toList.length := by
    rw [Vector.length_toList, ← size]
    rfl
  have start : ([] : List UInt8).length = 3 * 0 := rfl
  have written := overwrite?_eq m.shown.toList start room
  rw [List.nil_append, List.nil_append, Array.toArray_toList, ← m.frame_toList,
    Array.toArray_toList] at written
  exact written

def Memory.buffered (m : Memory) : Buffered := ⟨m, m.frame⟩

theorem Memory.apply?_buffered (m : Memory) (c : Change) : m.buffered.apply? c = some (m.apply c).buffered := by
  cases c with
  | mode mode => rfl
  | clear => rfl
  | draw s =>
    have after : (m.draw s).buffered = ⟨m.draw s, m.frame⟩ := by
      rw [buffered, Memory.frame, (m.draw_keeps s).2.1, Memory.frame]
    show ((s.shape.points m.mode).foldlM (setPixel? s.index) m).map _ = some (m.draw s).buffered
    rw [foldlM_setPixel?, ← draw_eq_paint, after]
    rfl
  | update =>
    show (overwrite? m.frame 0 m.update.shown.toList).map _ = some m.update.buffered
    rw [overwrite?_frame m.update m.size_frame]
    rfl

theorem Memory.foldlM_apply? (m : Memory) (changes : List Change) :
    changes.foldlM Buffered.apply? m.buffered = some (m.applyAll changes).buffered := by
  induction changes generalizing m with
  | nil => rfl
  | cons c changes ih =>
    rw [List.foldlM_cons, apply?_buffered]
    exact ih (m.apply c)

def blackFrame : ByteArray := ⟨Array.replicate 192000 0⟩

theorem frame_of_blank {m : Memory} (blank : m.shown = Picture.blank) : m.frame = blackFrame := by
  have black : colorBytes background = List.replicate 3 0 := rfl
  apply ByteArray.ext
  apply Array.toList_inj.mp
  rw [m.frame_toList, blank, Picture.blank, Vector.toList_replicate, List.flatMap_replicate, black,
    List.flatten_replicate_replicate, blackFrame, Array.toList_replicate]
  rfl

/-! ### The memory after any requests -/

/-- What is true of a memory after the given requests. -/
structure Represents (changes : List Change) (m : Memory) : Prop where
  cells : m.pixels.toArray.size = 64000 ∧ ∀ x y, (m.pixels.cell x y).val < 16
  bytes : m.frame.size = 192000
  /-- In multicolor mode columns `2k` and `2k + 1` are alike. -/
  paired : m.mode = .multiColor → ∀ k (inside : 2 * k + 1 < width) y,
    m.pixels.cell ⟨2 * k, Nat.lt_of_succ_lt inside⟩ y = m.pixels.cell ⟨2 * k + 1, inside⟩ y
  updates : m.updates = changes.countP Change.isUpdate
  black : (∀ c ∈ changes, c.isUpdate = false) → m.frame = blackFrame
  /-- The frame has the colors that the canvas had at the last update. -/
  shows : ∀ earlier later, changes = earlier ++ .update :: later → (∀ c ∈ later, c.isUpdate = false) →
    ∀ x y, ∃ c, (({} : Memory).applyAll earlier).Shows x y c ∧ frameBytes m.frame x y = colorBytes c
  /-- No request leads outside the buffers. -/
  inside : changes.foldlM Buffered.apply? ⟨{}, blackFrame⟩ = some ⟨m, m.frame⟩
  /-- A pixel can be read if it is on the canvas. -/
  reads : ∀ p, (m.pixel? p).isSome ↔ m.mode.OnCanvas p

/-- After any requests a memory has its buffers in order, and shows what its last update found. -/
theorem memory_represents (changes : List Change) : Represents changes (({} : Memory).applyAll changes) := by
  have coherent : ∀ earlier, (({} : Memory).applyAll earlier).Coherent :=
    fun earlier => (Memory.coherent_of_blank rfl).applyAll earlier
  refine ⟨⟨Vector.size_toArray _, fun x y => Fin.isLt _⟩, Memory.size_frame _, ?_, ?_, ?_, ?_, ?_, ?_⟩
  · intro wide k inside y
    exact (coherent changes).paired wide (by simp only; omega) y
  · rw [Memory.updates_applyAll]
    exact Nat.zero_add _
  · intro none
    exact frame_of_blank (Memory.shown_applyAll {} none)
  · rintro earlier later rfl none x y
    -- Nothing after the last update changes what is shown.
    have shown : (({} : Memory).applyAll (earlier ++ .update :: later)).shown =
        (({} : Memory).applyAll earlier).update.shown := by
      rw [Memory.applyAll_append]
      exact Memory.shown_applyAll _ none
    exact ⟨_, (coherent earlier).shows_update x y, by rw [Memory.frameBytes_frame, shown]⟩
  · have start : Buffered.mk {} blackFrame = ({} : Memory).buffered := by
      rw [Memory.buffered, frame_of_blank rfl]
    rw [start]
    exact Memory.foldlM_apply? {} changes
  · intro p
    by_cases onCanvas : (({} : Memory).applyAll changes).mode.OnCanvas p
    · simp [Memory.pixel?_eq _ onCanvas, onCanvas]
    · simp [Memory.pixel?_off _ onCanvas, onCanvas]

end RetroScript.Video
