import RetroScript.Proofs.Tiling

/-!
# Lexing undoes rendering

Tokens are written one to a line, strings in quotes. A line feed ends every spelling but that of a
string, and a string ends at its own quote, so each line reads back as the token it was written for.
-/
namespace RetroScript.Token

/-- The content of a string whose text is `text`. -/
def escaped (text : List Char) : List Char :=
  text.flatMap fun c => if c = '\\' ∨ c = '"' then ['\\', c] else [c]

def written (t : Token) : String :=
  if t.kind = .string then String.ofList ('"' :: (escaped t.text.toList ++ ['"'])) else t.text

def render (tokens : List Token) : String := "\n".intercalate (tokens.map written)

/-- Lexing some source gives such a token. -/
def Producible (kind : Kind) (text : String) : Prop :=
  ∃ source tokens, lex source = .ok tokens ∧ ∃ t ∈ tokens, t.kind = kind ∧ t.text = text

/-! ### What a token is written as -/

theorem escaped_cons (c : Char) (text : List Char) :
    escaped (c :: text) = (if c = '\\' ∨ c = '"' then ['\\', c] else [c]) ++ escaped text :=
  List.flatMap_cons

theorem escaped_mem_contents (text : List Char) : escaped text ∈ contents := by
  induction text with
  | nil => exact nil_mem_contents
  | cons c text ih =>
    rw [escaped_cons]
    by_cases special : c = '\\' ∨ c = '"'
    · rw [if_pos special]
      exact escape_mem_contents (by rintro rfl; revert special; decide) ih
    · rw [if_neg special]
      obtain ⟨slash, quote⟩ := not_or.mp special
      exact plain_mem_contents quote slash ih

theorem unescaped_escaped (text : List Char) : unescaped (escaped text) = text := by
  induction text with
  | nil => rfl
  | cons c text ih =>
    rw [escaped_cons]
    by_cases special : c = '\\' ∨ c = '"'
    · have self : unescape c = c := by rcases special with rfl | rfl <;> rfl
      rw [if_pos special]
      change unescape c :: unescaped (escaped text) = c :: text
      rw [self, ih]
    · rw [if_neg special, List.singleton_append, unescaped_cons (not_or.mp special).1, ih]

theorem spelled_string {t : Token} (string : t.kind = .string) :
    Spelled t (written t).toList := by
  have shape : (written t).toList = '"' :: (escaped t.text.toList ++ ['"']) := by
    rw [written, if_pos string, String.toList_ofList]
  rw [shape]
  refine ⟨by rw [string]; decide, ?_, ?_⟩
  · rw [string, spells_cons_iff]
    exact ⟨rfl, _, escaped_mem_contents _, rfl⟩
  · rw [string, textOf_quoted, unescaped_escaped, String.ofList_toList]

theorem Spelled.written {t : Token} {raw : List Char} (spelled : Spelled t raw) :
    Spelled t (written t).toList := by
  by_cases string : t.kind = .string
  · exact spelled_string string
  · have same : (Token.written t).toList = raw := by
      rw [Token.written, if_neg string, spelled.text, textOf, if_neg string, String.toList_ofList]
    rwa [same]

theorem Tiled.spelled {before rest : List Char} {tokens : List Token}
    (tiled : Tiled before tokens rest) : ∀ t ∈ tokens, ∃ raw, Spelled t raw := by
  induction tiled with
  | start => simp
  | blank _ _ _ ih => exact ih
  | @token before raw rest tokens t _ spelled _ _ _ ih =>
    intro u member
    rcases List.mem_append.mp member with earlier | last
    · exact ih u earlier
    · obtain rfl := List.mem_singleton.mp last
      exact ⟨raw, spelled⟩

theorem spelled_of_producible {t : Token} (producible : Producible t.kind t.text) :
    Spelled t (written t).toList := by
  obtain ⟨source, tokens, read, u, member, kind, text⟩ := producible
  rcases lexFrom_tiled .start source.toList [] (.start _) rfl with ⟨_, same, tiled⟩ | ⟨_, failed, -⟩
  · obtain rfl := Except.ok.inj (read.symm.trans same)
    obtain ⟨raw, visible, spelled, text'⟩ := tiled.spelled u member
    rw [kind] at visible spelled text'
    exact Spelled.written ⟨visible, spelled, text.symm.trans text'⟩
  · cases read.symm.trans failed

/-! ### Reading one token back -/

theorem linefeed_notMem {kind : Kind} {raw : List Char} (spelled : Spells kind raw)
    (visible : kind ≠ .whitespace) (content : kind ≠ .string) : '\n' ∉ raw := by
  intro inside
  obtain ⟨c, tail, rfl⟩ := List.exists_cons_of_ne_nil (List.ne_nil_of_mem inside)
  cases spelled with
  | blank => exact visible rfl
  | comment shape =>
    obtain ⟨rfl, parts⟩ := mem_comments.mp shape
    cases parts '\n' (by simpa using inside)
  | string => exact content rfl
  | number shape =>
    have apart {cs : List Char} (digits : Digits cs) : '\n' ∉ cs := fun found => by
      cases digits.2 _ found
    rcases mem_numbers.mp shape with digits | ⟨whole, part, digits, fraction, same⟩ |
      ⟨part, fraction, same⟩
    · exact apart digits inside
    · rw [same] at inside
      simp [apart digits, apart fraction] at inside
    · rw [same] at inside
      simp [apart fraction] at inside
  | keyword shape | ident shape =>
    obtain ⟨start, parts⟩ := mem_words.mp shape
    rcases List.mem_cons.mp inside with rfl | later
    · cases start
    · cases parts '\n' later
  | mark listed =>
    have none : ∀ entry ∈ marks, '\n' ∉ entry.1 := by decide
    exact none _ listed inside

theorem quote_iff {c : Char} {tail : List Char} {kind : Kind} (spelled : Spells kind (c :: tail)) :
    kind = .string ↔ c = '"' := by
  constructor
  · rintro rfl
    cases spelled with
    | string shape => exact (mem_strings.mp shape).1
    | keyword _ listed => exact absurd listed (by simp [keywords])
    | mark listed => exact absurd listed (by simp [marks])
  · rintro rfl
    exact (spells_cons_iff.mp spelled).1

theorem whitespace_iff {c : Char} {tail : List Char} {kind : Kind}
    (spelled : Spells kind (c :: tail)) : kind = .whitespace ↔ isBlank c = true := by
  constructor
  · rintro rfl
    cases spelled with
    | blank shape => exact blank_iff.mp ((mem_someOf.mp shape).2 c List.mem_cons_self)
    | keyword _ listed => exact absurd listed (by simp [keywords])
    | mark listed => exact absurd listed (by simp [marks])
  · intro blank
    have continued := spells_cons_iff.mp spelled
    rw [Continues, if_pos blank] at continued
    exact continued.1

/-- What may follow a written token. -/
def Apart (rest : List Char) : Prop := rest = [] ∨ ∃ more, rest = '\n' :: more

/-- A text without line feeds ends where a written token does, if not earlier. -/
theorem eq_of_apart {raw raw' rest rest' : List Char} (apart : Apart rest)
    (same : raw ++ rest = raw' ++ rest') (longer : raw.length ≤ raw'.length) (flat : '\n' ∉ raw') :
    raw' = raw ∧ rest' = rest := by
  obtain ⟨more, rfl⟩ : raw <+: raw' :=
    List.prefix_of_prefix_length_le ⟨rest, same⟩ (List.prefix_append raw' rest') longer
  rw [List.append_assoc, List.append_cancel_left_eq] at same
  cases more with
  | nil => exact ⟨List.append_nil raw, same.symm⟩
  | cons d more =>
    rcases apart with rfl | ⟨after, rfl⟩
    · cases same
    · obtain ⟨rfl, -⟩ := List.cons.inj same
      exact (flat (by simp)).elim

theorem head_of_spells {c : Char} {cs raw rest : List Char} {kind : Kind} (spelled : Spells kind raw)
    (here : c :: cs = raw ++ rest) : ∃ tail, raw = c :: tail := by
  cases raw with
  | nil => exact absurd spelled (not_spells_nil kind)
  | cons d tail =>
    obtain ⟨rfl, -⟩ := List.cons.inj here
    exact ⟨tail, rfl⟩

theorem scan_spelled {c : Char} {tail rest : List Char} {kind : Kind}
    (spelled : Spells kind (c :: tail)) (visible : kind ≠ .whitespace) (apart : Apart rest) :
    scan c (tail ++ rest) = .token kind (c :: tail) (textOf kind (c :: tail)) rest := by
  by_cases string : kind = .string
  · subst string
    obtain rfl := (quote_iff spelled).mp rfl
    obtain ⟨-, body, member, rfl⟩ := continues_quote.mp (spells_cons_iff.mp spelled)
    rw [List.append_assoc, List.singleton_append]
    exact scanString_quoted member rest
  · have front : c :: tail <+: c :: (tail ++ rest) := ⟨rest, rfl⟩
    have fits := scan_fits c (tail ++ rest)
    generalize scan c (tail ++ rest) = lexeme at fits
    cases fits with
    | broken _ _ stuck => exact (stuck kind _ front spelled).elim
    | blank here spelled' =>
      obtain ⟨tail', rfl⟩ := head_of_spells spelled' here
      exact (visible ((whitespace_iff spelled).mpr ((whitespace_iff spelled').mp rfl))).elim
    | token here visible' spelled' longest =>
      obtain ⟨tail', rfl⟩ := head_of_spells spelled' here
      have content := mt (fun same => (quote_iff spelled).mpr ((quote_iff spelled').mp same)) string
      obtain ⟨same, rfl⟩ := eq_of_apart apart here (longest kind _ front spelled)
        (linefeed_notMem spelled' visible' content)
      rw [same] at spelled' ⊢
      rw [spelled'.unique spelled]

/-! ### Reading all tokens back -/

theorem lexFrom_blank {pos : Position} {c : Char} {cs raw rest : List Char}
    (found : scan c cs = .blank raw rest) (read : List Token) :
    lexFrom pos (c :: cs) read = lexFrom (pos.advance raw) rest read := by
  rw [lexFrom]
  split <;> simp_all

theorem lexFrom_token {pos : Position} {c : Char} {cs raw rest : List Char} {kind : Kind}
    {text : String} (found : scan c cs = .token kind raw text rest) (read : List Token) :
    lexFrom pos (c :: cs) read = lexFrom (pos.advance raw) rest (⟨kind, text, pos⟩ :: read) := by
  rw [lexFrom]
  split <;> simp_all

theorem lexFrom_linefeed (pos : Position) {c : Char} (visible : isBlank c = false) (cs : List Char)
    (read : List Token) :
    lexFrom pos ('\n' :: c :: cs) read = lexFrom (pos.next '\n') (c :: cs) read := by
  have found : scan '\n' (c :: cs) = .blank ['\n'] (c :: cs) := by
    simp [scan, visible, show isBlank '\n' = true from rfl]
  exact lexFrom_blank found read

theorem lexFrom_written {t : Token} (spelled : Spelled t (written t).toList) {rest : List Char}
    (apart : Apart rest) (pos : Position) (read : List Token) :
    lexFrom pos ((written t).toList ++ rest) read =
      lexFrom (pos.advance (written t).toList) rest (⟨t.kind, t.text, pos⟩ :: read) := by
  rw [spelled.text]
  have shape := spelled.spelled
  generalize (written t).toList = raw at shape
  cases raw with
  | nil => exact absurd shape (not_spells_nil _)
  | cons c tail => exact lexFrom_token (scan_spelled shape spelled.visible apart) read

theorem render_single (t : Token) : (render [t]).toList = (written t).toList := by
  simp [render]

theorem render_cons (t u : Token) (tokens : List Token) :
    (render (t :: u :: tokens)).toList =
      (written t).toList ++ '\n' :: (render (u :: tokens)).toList := by
  simp [render, String.intercalate_cons_cons, String.toList_append]

theorem written_prefix (t : Token) (tokens : List Token) :
    (written t).toList <+: (render (t :: tokens)).toList := by
  cases tokens with
  | nil => rw [render_single]
  | cons u tokens =>
    rw [render_cons]
    exact List.prefix_append _ _

theorem render_head {t : Token} (spelled : Spelled t (written t).toList) (tokens : List Token) :
    ∃ c cs, (render (t :: tokens)).toList = c :: cs ∧ isBlank c = false := by
  obtain ⟨rest, whole⟩ := written_prefix t tokens
  have shape := spelled.spelled
  generalize (written t).toList = raw at shape whole
  cases raw with
  | nil => exact absurd shape (not_spells_nil _)
  | cons c tail =>
    refine ⟨c, tail ++ rest, whole.symm, ?_⟩
    exact Bool.eq_false_of_not_eq_true (mt (whitespace_iff shape).mpr spelled.visible)

/-- A token without its place. -/
def content (t : Token) : Kind × String := (t.kind, t.text)

theorem lexFrom_render (tokens : List Token) (spelled : ∀ t ∈ tokens, Spelled t (written t).toList)
    (pos : Position) (read : List Token) :
    ∃ found, lexFrom pos (render tokens).toList read = .ok (read.reverse ++ found) ∧
      found.map content = tokens.map content := by
  induction tokens generalizing pos read with
  | nil => exact ⟨[], by simp [render, lexFrom], rfl⟩
  | cons t tokens ih =>
    obtain ⟨first, later⟩ := List.forall_mem_cons.mp spelled
    cases tokens with
    | nil =>
      have ended := lexFrom_written first (.inl rfl) pos read
      rw [List.append_nil, lexFrom, List.reverse_cons] at ended
      exact ⟨[⟨t.kind, t.text, pos⟩], by rw [render_single, ended], rfl⟩
    | cons u tokens =>
      obtain ⟨c, cs, shape, visible⟩ := render_head (later u List.mem_cons_self) tokens
      rw [render_cons, lexFrom_written first (.inr ⟨_, rfl⟩), shape, lexFrom_linefeed _ visible,
        ← shape]
      obtain ⟨found, ended, same⟩ := ih later _ (⟨t.kind, t.text, pos⟩ :: read)
      refine ⟨⟨t.kind, t.text, pos⟩ :: found, ?_, ?_⟩
      · rw [ended, List.reverse_cons, List.append_assoc, List.singleton_append]
      · rw [List.map_cons, List.map_cons, same]
        rfl

theorem producible_string (text : String) : Producible .string text := by
  obtain ⟨found, ended, same⟩ := lexFrom_render [⟨.string, text, .start⟩]
    (fun t member => spelled_string (by rw [List.mem_singleton.mp member])) .start []
  obtain ⟨t, rfl, single⟩ := List.map_eq_singleton_iff.mp same
  obtain ⟨kind, text⟩ := Prod.mk.inj single
  exact ⟨_, [t], ended, t, List.mem_cons_self, kind, text⟩

/-- Tokens that lexing can give, strings of any text among them, are what lexing gives for the lines
they are written on. -/
theorem lex_render (tokens : List Token) (producible : ∀ t ∈ tokens, Producible t.kind t.text) :
    (∃ read, lex (render tokens) = .ok read ∧ read.map content = tokens.map content) ∧
    ∀ text, Producible .string text := by
  refine ⟨?_, producible_string⟩
  have spelled : ∀ t ∈ tokens, Spelled t (written t).toList := fun t member =>
    spelled_of_producible (producible t member)
  exact lexFrom_render tokens spelled .start []

/-- Tokens that would run together on one line, after a string of a line feed, a quote, a backslash
and a null. -/
def unruly : List Token :=
  [⟨.string, "a\n\"b\\\x00n", .none⟩, ⟨.comment, "# \"end", .none⟩, ⟨.whileWord, "While", .none⟩,
   ⟨.ident, "x1", .none⟩, ⟨.number, ".5", .none⟩, ⟨.number, "5", .none⟩, ⟨.less, "<", .none⟩,
   ⟨.equal, "=", .none⟩, ⟨.greater, ">", .none⟩]

/-- The same tokens with another spelling of the string. -/
def unrulySource : String := "\"\\a\\n\\\"b\\\\\\0n\"# \"end\nWhile x1.5 5< = >"

theorem unruly_producible : ∀ t ∈ unruly, Producible t.kind t.text := by
  have read : (lex unrulySource).toOption.map (List.map content) = some (unruly.map content) := by
    decide +kernel
  intro t member
  cases ended : lex unrulySource with
  | error e =>
    rw [ended] at read
    cases read
  | ok tokens =>
    rw [ended] at read
    have same : tokens.map content = unruly.map content := Option.some.inj read
    obtain ⟨u, inside, equal⟩ := List.mem_map.mp (same ▸ List.mem_map_of_mem member)
    obtain ⟨kind, text⟩ := Prod.mk.inj equal
    exact ⟨unrulySource, tokens, ended, u, inside, kind, text⟩

theorem lex_render_unruly :
    (∀ t ∈ unruly, Producible t.kind t.text) ∧
    ∃ read, lex (render unruly) = .ok read ∧ read.map content = unruly.map content :=
  ⟨unruly_producible, (lex_render unruly unruly_producible).1⟩

end RetroScript.Token
