import SsaForm.FlowGraph.Dot

/-!
# Reading a drawing

Between quotes a reader takes a backslash together with the character behind it, and the first
quote that it meets otherwise ends the text. So a drawing is read as it was written, whatever
names and instructions the graph has: every quoted text ends at its own quote. An escaped text
stands for the text itself, without its carriage returns.
-/

namespace SsaForm

namespace Dot

/-- What an escaped text stands for. A backslash and the letter n stand for a line break, a
backslash and another character for that character. There is nothing to read in a text that has
a bare quote or a bare line break or ends inside of an escape. -/
def unescape : List Char → Option (List Char)
  | [] => some []
  | c :: rest =>
    if c = '\\' then
      match rest with
      | [] => none
      | escaped :: rest => (unescape rest).map ((if escaped = 'n' then '\n' else escaped) :: ·)
    else if c = '"' ∨ c = '\n' then
      none
    else
      (unescape rest).map (c :: ·)

theorem unescape_pair (c : Char) (rest : List Char) :
    unescape ('\\' :: c :: rest) = (unescape rest).map ((if c = 'n' then '\n' else c) :: ·) :=
  rfl

theorem unescape_plain {c : Char} (alone : c ≠ '\\') (allowed : ¬(c = '"' ∨ c = '\n'))
    (rest : List Char) : unescape (c :: rest) = (unescape rest).map (c :: ·) := by
  rw [unescape.eq_def]
  exact (if_neg alone).trans (if_neg allowed)

/-- What stands in front is read first. -/
theorem unescape_append {front meaning : List Char} (read : unescape front = some meaning)
    (back : List Char) : unescape (front ++ back) = (unescape back).map (meaning ++ ·) := by
  fun_induction unescape front generalizing meaning with
  | case1 =>
    cases read
    exact Option.map_id'.symm
  | case2 => cases read
  | case3 escaped rest inductionHypothesis =>
    obtain ⟨others, readOthers, rfl⟩ := Option.map_eq_some_iff.mp read
    rw [List.cons_append, List.cons_append, unescape_pair, inductionHypothesis readOthers,
      Option.map_map]
    rfl
  | case4 => cases read
  | case5 c rest alone allowed inductionHypothesis =>
    obtain ⟨others, readOthers, rfl⟩ := Option.map_eq_some_iff.mp read
    rw [List.cons_append, unescape_plain alone allowed, inductionHypothesis readOthers,
      Option.map_map]
    rfl

theorem unescape_escapeChar (c : Char) :
    unescape (escapeChar c) = some ([c].filter (· ≠ '\r')) := by
  rw [escapeChar]
  split
  next marked => rcases marked with rfl | rfl | rfl | rfl <;> rfl
  next unmarked =>
    split
    next isBreak => rw [isBreak]; rfl
    next noBreak =>
      split
      next isReturn => rw [isReturn]; rfl
      next kept =>
        have alone : c ≠ '\\' := fun same => unmarked (.inl same)
        have allowed : ¬(c = '"' ∨ c = '\n') :=
          not_or.mpr ⟨fun same => unmarked (.inr (.inl same)), noBreak⟩
        rw [unescape_plain alone allowed]
        simp [unescape, kept]

/-- An escaped text stands for the text without its carriage returns. -/
theorem unescape_toList_escape (text : String) :
    unescape (escape text).toList = some (text.toList.filter (· ≠ '\r')) := by
  rw [escape, String.toList_ofList]
  induction text.toList with
  | nil => rfl
  | cons c rest inductionHypothesis =>
    rw [List.flatMap_cons, unescape_append (unescape_escapeChar c), inductionHypothesis,
      Option.map_some, ← List.filter_append, List.singleton_append]

/-- Whether a text can stand between quotes. -/
def Quotable (text : List Char) : Prop :=
  ∃ meaning, unescape text = some meaning

instance (text : List Char) : Decidable (Quotable text) :=
  decidable_of_iff ((unescape text).isSome = true) Option.isSome_iff_exists

theorem quotable_escape (text : String) : Quotable (escape text).toList :=
  ⟨_, unescape_toList_escape text⟩

theorem Quotable.append {front back : List Char} (first : Quotable front) (second : Quotable back) :
    Quotable (front ++ back) := by
  obtain ⟨meaning, read⟩ := first
  obtain ⟨others, readOthers⟩ := second
  exact ⟨meaning ++ others, by rw [unescape_append read, readOthers, Option.map_some]⟩

theorem Quotable.flatMap {α : Type} {write : α → List Char} {entries : List α}
    (each : ∀ entry ∈ entries, Quotable (write entry)) : Quotable (entries.flatMap write) := by
  induction entries with
  | nil => exact ⟨[], rfl⟩
  | cons entry rest inductionHypothesis =>
    obtain ⟨first, others⟩ := List.forall_mem_cons.mp each
    exact first.append (inductionHypothesis others)

/-- Where a reader of a drawing is: outside of quotes, between them, or between them behind a
backslash that takes the next character. -/
inductive Mode where
  | outside
  | inside
  | escaping
deriving DecidableEq

namespace Mode

/-- Where the reader is one character later. -/
def step : Mode → Char → Mode
  | .outside, c => if c = '"' then .inside else .outside
  | .inside, c => if c = '"' then .outside else if c = '\\' then .escaping else .inside
  | .escaping, _ => .inside

/-- Where the reader is behind a text. -/
def after (mode : Mode) (text : List Char) : Mode :=
  text.foldl step mode

theorem after_append (mode : Mode) (front back : List Char) :
    mode.after (front ++ back) = (mode.after front).after back :=
  List.foldl_append

theorem after_cons (mode : Mode) (c : Char) (rest : List Char) :
    mode.after (c :: rest) = (mode.step c).after rest :=
  rfl

theorem step_inside {c : Char} (alone : c ≠ '\\') (unquoted : c ≠ '"') :
    inside.step c = inside := by
  rw [step, if_neg unquoted, if_neg alone]

/-- Only a quote leads between quotes. -/
theorem outside_after {text : List Char} (unquoted : '"' ∉ text) :
    outside.after text = outside := by
  induction text with
  | nil => rfl
  | cons c rest inductionHypothesis =>
    rw [after_cons, step, if_neg (List.ne_of_not_mem_cons unquoted).symm,
      inductionHypothesis (List.not_mem_of_not_mem_cons unquoted)]

/-- A quotable text never leads out of the quotes, and a quote behind it is not escaped. -/
theorem inside_after {text : List Char} (quotable : Quotable text) :
    inside.after text = inside ∧ ∀ part, part <+: text → inside.after part ≠ outside := by
  obtain ⟨meaning, read⟩ := quotable
  fun_induction unescape text generalizing meaning with
  | case1 =>
    refine ⟨rfl, ?_⟩
    intro part isPart
    rw [List.prefix_nil.mp isPart]
    decide
  | case2 => cases read
  | case3 escaped rest inductionHypothesis =>
    obtain ⟨others, readOthers, _⟩ := Option.map_eq_some_iff.mp read
    obtain ⟨whole, parts⟩ := inductionHypothesis others readOthers
    refine ⟨whole, ?_⟩
    intro part isPart
    -- The two characters of an escape are two steps, and the second may be a quote.
    rcases List.prefix_cons_iff.mp isPart with rfl | ⟨behind, rfl, isBehind⟩
    · decide
    · rcases List.prefix_cons_iff.mp isBehind with rfl | ⟨later, rfl, isLater⟩
      · decide
      · exact parts later isLater
  | case4 => cases read
  | case5 c rest alone allowed inductionHypothesis =>
    obtain ⟨others, readOthers, _⟩ := Option.map_eq_some_iff.mp read
    obtain ⟨whole, parts⟩ := inductionHypothesis others readOthers
    have stays := step_inside alone (not_or.mp allowed).1
    refine ⟨by rw [after_cons, stays, whole], ?_⟩
    intro part isPart
    rcases List.prefix_cons_iff.mp isPart with rfl | ⟨behind, rfl, isBehind⟩
    · decide
    · rw [after_cons, stays]
      exact parts behind isBehind

end Mode

/-- The text of a row of pieces. -/
def written (pieces : List Piece) : List Char :=
  pieces.flatMap fun piece => piece.text.toList

/-- How a reader of a drawing takes a piece behind `front`. It reaches the piece outside of
quotes. In a bare piece it stays there. A quoted piece leads it between quotes, where it meets no
bare quote, no bare line break and no half of an escape, and it leaves them again at the last
quote of the piece and not before. -/
def Piece.ReadBehind (front : List Char) : Piece → Prop
  | .bare text => ∀ part, part <+: text.toList → Mode.outside.after (front ++ part) = .outside
  | .quoted inside =>
    Mode.outside.after front = .outside ∧ Quotable inside.toList ∧
      (∀ part, part <+: inside.toList → Mode.outside.after (front ++ '"' :: part) ≠ .outside) ∧
      Mode.outside.after (front ++ '"' :: inside.toList ++ ['"']) = .outside

/-- A bare piece has no quotes, and what stands between the quotes of a quoted one can be read. -/
def Piece.Sound : Piece → Prop
  | .bare text => '"' ∉ text.toList
  | .quoted inside => Quotable inside.toList

instance : DecidablePred Piece.Sound
  | .bare text => inferInstanceAs (Decidable ('"' ∉ text.toList))
  | .quoted inside => inferInstanceAs (Decidable (Quotable inside.toList))

namespace Piece

theorem Sound.readBehind {piece : Piece} (sound : piece.Sound) {front : List Char}
    (outside : Mode.outside.after front = .outside) : piece.ReadBehind front := by
  cases piece with
  | bare text =>
    intro part isPart
    rw [Mode.after_append, outside]
    exact Mode.outside_after fun quoted => sound (isPart.subset quoted)
  | quoted inside =>
    obtain ⟨whole, parts⟩ := Mode.inside_after sound
    refine ⟨outside, sound, ?_, ?_⟩
    · intro part isPart
      rw [Mode.after_append, outside]
      exact parts part isPart
    · rw [Mode.after_append, Mode.after_append, outside, Mode.after_cons]
      exact congrArg (Mode.after · ['"']) whole

/-- Behind a piece the reader is outside of quotes again. -/
theorem ReadBehind.outside_after {piece : Piece} {front : List Char}
    (read : piece.ReadBehind front) :
    Mode.outside.after (front ++ piece.text.toList) = .outside := by
  cases piece with
  | bare text => exact read text.toList (List.prefix_refl _)
  | quoted inside =>
    have closed := read.2.2.2
    rw [text, String.toList_append, String.toList_append]
    rwa [List.append_assoc] at closed

end Piece

/-- Behind sound pieces the reader is outside of quotes. -/
theorem outside_after_written {pieces : List Piece} (sound : ∀ piece ∈ pieces, piece.Sound)
    (front : List Char) (outside : Mode.outside.after front = .outside) :
    Mode.outside.after (front ++ written pieces) = .outside := by
  induction pieces generalizing front with
  | nil => rwa [written, List.flatMap_nil, List.append_nil]
  | cons piece rest inductionHypothesis =>
    obtain ⟨first, others⟩ := List.forall_mem_cons.mp sound
    rw [written, List.flatMap_cons, ← List.append_assoc]
    exact inductionHypothesis others _ (first.readBehind outside).outside_after

theorem sound_quote (text : String) : (quote text).Sound :=
  quotable_escape text

end Dot

namespace FlowGraph

open Dot (Piece quote)

theorem sound_dotLabel (b : Block) : (dotLabel b).Sound := by
  rw [dotLabel, Piece.Sound, String.toList_join, List.flatMap_map]
  refine Dot.Quotable.flatMap fun i _ => ?_
  rw [String.toList_append]
  exact (Dot.quotable_escape i.text).append ⟨['l'], rfl⟩

theorem sound_dotBlock (highlight : KeySet String) (current : Option String) (b : Block) :
    ∀ piece ∈ dotBlock highlight current b, piece.Sound := by
  have looks : Piece.Sound (.bare
      ((if b.name ∈ highlight then ", style=filled, fillcolor=lightblue" else "") ++
        (if current = some b.name then ", penwidth=3" else "") ++ "];\n")) := by
    split <;> split <;> decide
  simp only [dotBlock, List.forall_mem_cons]
  exact ⟨by decide, Dot.sound_quote b.name, by decide, sound_dotLabel b, by decide,
    Dot.sound_quote b.name, looks, List.forall_mem_nil _⟩

theorem sound_dotEdge (source : String) (e : Edge) : ∀ piece ∈ dotEdge source e, piece.Sound := by
  have label : Piece.Sound (.quoted e.kind.label) := by
    cases e.kind <;> decide
  have looks : Piece.Sound (.bare (", color=" ++ e.kind.color ++ "];\n")) := by
    cases e.kind <;> decide
  simp only [dotEdge, List.forall_mem_cons]
  exact ⟨by decide, Dot.sound_quote source, by decide, Dot.sound_quote e.target, by decide, label,
    looks, List.forall_mem_nil _⟩

theorem sound_dotDefaults : ∀ piece ∈ dotDefaults, piece.Sound := by
  decide +kernel

theorem sound_dotPieces (g : FlowGraph) (highlight : KeySet String) (current : Option String) :
    ∀ piece ∈ g.dotPieces highlight current, piece.Sound := by
  simp only [dotPieces, List.forall_mem_append, List.forall_mem_flatMap]
  refine ⟨⟨⟨⟨⟨?_, sound_dotDefaults⟩, ?_⟩, ?_⟩, ?_⟩, ?_⟩
  · exact List.forall_mem_cons.mpr ⟨by decide,
      List.forall_mem_cons.mpr ⟨Dot.sound_quote g.name, by decide⟩⟩
  · exact fun b _ => sound_dotBlock highlight current b
  · decide
  · exact fun b _ e _ => sound_dotEdge b.name e
  · decide

theorem toList_toDot (g : FlowGraph) (highlight : KeySet String) (current : Option String) :
    (g.toDot highlight current).toList = Dot.written (g.dotPieces highlight current) := by
  rw [toDot, String.toList_join, List.flatMap_map, Dot.written]

/-- A drawing is read as it was written. An escaped text is read to its end, without a bare quote
or line break, and stands for the text without its carriage returns. So in the drawing of any
graph, whatever its names are, every piece is read behind those in front of it as what it is: a
quoted text is opened and closed by the two quotes that were written for it. -/
theorem quotes_end_where_written :
    (∀ text : String,
      Dot.unescape (Dot.escape text).toList = some (text.toList.filter (· ≠ '\r'))) ∧
    ∀ (g : FlowGraph) (highlight : KeySet String) (current : Option String)
      (front : List Piece) (piece : Piece) (back : List Piece),
      g.dotPieces highlight current = front ++ piece :: back →
        (g.toDot highlight current).toList =
          Dot.written front ++ piece.text.toList ++ Dot.written back ∧
        piece.ReadBehind (Dot.written front) := by
  refine ⟨Dot.unescape_toList_escape, ?_⟩
  intro g highlight current front piece back pieces
  have sound := g.sound_dotPieces highlight current
  rw [pieces, List.forall_mem_append, List.forall_mem_cons] at sound
  obtain ⟨before, here, _⟩ := sound
  refine ⟨?_, here.readBehind (Dot.outside_after_written before [] rfl)⟩
  rw [toList_toDot, pieces, Dot.written, List.flatMap_append, List.flatMap_cons,
    List.append_assoc]
  rfl

/-- A block that jumps to itself, with quotes, backslashes, angle brackets and line breaks in the
names. -/
def awkward : FlowGraph where
  name := "say \"hi\"\\"
  params := []
  result := none
  blocks := [⟨"\"loop\\", [.effect "print\r\n\"" ["a>b\\"], .jmp "\"loop\\"]⟩]
  index := .ofList [("\"loop\\", 0)]

/-- What stands in the box of the block. -/
def awkwardLabel : Piece :=
  .quoted "print\\n\\\" a\\>b\\\\;\\ljmp .\\\"loop\\\\;\\l"

theorem quotes_end_where_written_awkward :
    ∃ front back, awkward.dotPieces ∅ (some "\"loop\\") = front ++ awkwardLabel :: back ∧
      (awkward.toDot ∅ (some "\"loop\\")).toList =
        Dot.written front ++ awkwardLabel.text.toList ++ Dot.written back ∧
      awkwardLabel.ReadBehind (Dot.written front) := by
  have pieces : awkward.dotPieces ∅ (some "\"loop\\") =
      (awkward.dotPieces ∅ (some "\"loop\\")).take 12 ++ awkwardLabel ::
        (awkward.dotPieces ∅ (some "\"loop\\")).drop 13 := by decide +kernel
  exact ⟨_, _, pieces, quotes_end_where_written.2 awkward ∅ (some "\"loop\\") _ _ _ pieces⟩

end FlowGraph

end SsaForm
