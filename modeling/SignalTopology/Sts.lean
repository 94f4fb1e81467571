import SignalTopology.Ddl.Blanks

/-!
# The shell

`sts` reads one command from each line. The words come from splitting the line at
whitespace, the payload of `event` from stripping the first three words, put together with
single blanks, off the line. The two agree exactly where the line is spaced that way: with
any other spacing a payload is dropped.
-/

namespace SignalTopology.Sts

open Guard (AllBlank)
open Ddl (trim)

inductive Command where
  | event (signal event : String) (payload : Option String)
  | state
  | trace
  | help
  | quit
  | fail (actionId : String)
  | reset
  | dot
  | dotExt (svg : Bool)
  | why (fromSignal fromState toSignal event : String)
  | unknown (word : String)
  deriving DecidableEq

inductive ParseError where
  | eventArgs
  | failActionId
  | whyArgs
  deriving DecidableEq

/-- The characters of a word. -/
def isVisible (c : Char) : Bool := !isWhitespace c

/-- `str::split_whitespace`. -/
def splitWhitespace (cs : List Char) : List String :=
  match _front : cs.dropWhile isWhitespace with
  | [] => []
  | c :: rest =>
      String.ofList (c :: rest.takeWhile isVisible) :: splitWhitespace (rest.dropWhile isVisible)
termination_by cs.length
decreasing_by
  have dropped := (List.dropWhile_suffix (l := cs) isWhitespace).length_le
  have rest_le := (List.dropWhile_suffix (l := rest) isVisible).length_le
  rw [_front, List.length_cons] at dropped
  omega

/-- `str::strip_prefix`. -/
def stripPrefix (front cs : List Char) : Option (List Char) :=
  if front.isPrefixOf cs then some (cs.drop front.length) else none

/-- `str::trim_start`. -/
def trimStart (cs : List Char) : List Char := cs.dropWhile isWhitespace

/-- The front of an event line, put together from its words. -/
def eventPrefix (signal event : String) : List Char :=
  "event ".toList ++ (signal.toList ++ (' ' :: event.toList))

/-- The payload of an event line that is trimmed. -/
def eventPayload (line : List Char) (signal event : String) : Option String :=
  (((stripPrefix (eventPrefix signal event) line).map trimStart).filter (· ≠ [])).map String.ofList

/-- `parse_command`. -/
def parseCommand (line : String) : Except ParseError Command :=
  let line := trim line.toList
  match splitWhitespace line with
  | [] => .ok (.unknown "")
  | "event" :: signal :: event :: _ => .ok (.event signal event (eventPayload line signal event))
  | "event" :: _ => .error .eventArgs
  | "state" :: _ => .ok .state
  | "trace" :: _ => .ok .trace
  | "help" :: _ => .ok .help
  | "quit" :: _ | "exit" :: _ => .ok .quit
  | "fail" :: actionId :: _ => .ok (.fail actionId)
  | "fail" :: _ => .error .failActionId
  | "reset" :: _ => .ok .reset
  | "dot" :: _ => .ok .dot
  | "dot-ext" :: args => .ok (.dotExt (args.head? = some "--svg"))
  | "why" :: fromSignal :: fromState :: toSignal :: event :: _ =>
      .ok (.why fromSignal fromState toSignal event)
  | "why" :: _ => .error .whyArgs
  | word :: _ => .ok (.unknown word)

/-! ## Words -/

/-- A word: visible characters, at least one. -/
structure IsWord (word : List Char) : Prop where
  nonempty : word ≠ []
  visible : ∀ c ∈ word, isWhitespace c = false

/-- A text that does not go on with a word. -/
def Apart (cs : List Char) : Prop := ∀ c, cs.head? = some c → isWhitespace c = true

theorem IsWord.first {word : List Char} (h : IsWord word) (rest : List Char) :
    ∀ c, (word ++ rest).head? = some c → isWhitespace c = false := by
  intro c head
  rw [List.head?_append_of_ne_nil _ h.nonempty] at head
  exact h.visible c (List.mem_of_head? head)

/-- The first word of a line, with what stands before and behind it. -/
theorem splitWhitespace_cons {cs : List Char} {word : String} {more : List String}
    (words : splitWhitespace cs = word :: more) :
    ∃ gap rest, cs = gap ++ (word.toList ++ rest) ∧ AllBlank gap ∧ IsWord word.toList ∧
      Apart rest ∧ splitWhitespace rest = more := by
  rw [splitWhitespace] at words
  split at words
  · cases words
  · next c rest front =>
      cases words
      have visible : isWhitespace c = false := by
        have stopped := List.head?_dropWhile_not isWhitespace cs
        rw [front] at stopped
        simpa using stopped
      refine ⟨cs.takeWhile isWhitespace, rest.dropWhile isVisible, ?_, Ddl.allBlank_takeWhile cs,
        ⟨by simp, ?_⟩, ?_, rfl⟩
      · rw [String.toList_ofList, List.cons_append, List.takeWhile_append_dropWhile, ← front,
          List.takeWhile_append_dropWhile]
      · rw [String.toList_ofList]
        refine List.forall_mem_cons.mpr ⟨visible, fun d member => ?_⟩
        simpa [isVisible] using List.mem_takeWhile_imp member
      · intro d head
        have stopped := List.head?_dropWhile_not isVisible rest
        rw [head] at stopped
        simpa [isVisible] using stopped

theorem splitWhitespace_word {gap rest : List Char} {word : String} (blank : AllBlank gap)
    (own : IsWord word.toList) (apart : Apart rest) :
    splitWhitespace (gap ++ (word.toList ++ rest)) = word :: splitWhitespace rest := by
  have front := Ddl.dropWhile_blanks blank (own.first rest)
  obtain ⟨c, cs, same⟩ := List.exists_cons_of_ne_nil own.nonempty
  have visible : ∀ d ∈ cs, isVisible d = true := by
    intro d member
    rw [isVisible, own.visible d (same ▸ List.mem_cons_of_mem c member), Bool.not_false]
  have stops : ∀ d, rest.head? = some d → isVisible d = false := by
    intro d head
    rw [isVisible, apart d head, Bool.not_true]
  have taken : (cs ++ rest).takeWhile isVisible = cs := by
    rw [List.takeWhile_append_of_pos visible]
    cases rest with
    | nil => exact List.append_nil cs
    | cons d rest => rw [List.takeWhile_cons_of_neg (by simp [stops d rfl]), List.append_nil]
  have dropped : (cs ++ rest).dropWhile isVisible = rest := by
    rw [List.dropWhile_append_of_pos visible]
    cases rest with
    | nil => rfl
    | cons d rest => exact List.dropWhile_cons_of_neg (by simp [stops d rfl])
  rw [same, List.cons_append] at front
  rw [splitWhitespace]
  split
  · next empty =>
      rw [same, List.cons_append, front] at empty
      cases empty
  · next c' rest' first =>
      rw [same, List.cons_append, front] at first
      cases first
      rw [taken, dropped, ← same, String.ofList_toList]

/-! ## Trimmed lines -/

theorem IsWord.solid {word : List Char} (h : IsWord word) : Ddl.Solid word :=
  .of_all h.nonempty h.visible

theorem solid_enclosed {front text back : List Char} (first : Ddl.Solid front)
    (last : Ddl.Solid back) : Ddl.Solid (front ++ (text ++ back)) := by
  refine ⟨by simp [first.nonempty], fun c head => ?_, fun c tail => ?_⟩
  · rw [List.head?_append_of_ne_nil _ first.nonempty] at head
    exact first.first c head
  · rw [← List.append_assoc, List.getLast?_append_of_ne_nil _ last.nonempty] at tail
    exact last.last c tail

theorem trim_eq_nil {cs : List Char} : trim cs = [] ↔ AllBlank cs := by
  constructor
  · intro empty
    obtain ⟨front, back, split, before, after⟩ := Ddl.split_trim cs
    rw [empty, List.nil_append] at split
    rw [split]
    exact List.forall_mem_append.mpr ⟨before, after⟩
  · intro blank
    rw [trim, List.dropWhile_eq_nil_iff.mpr blank]
    rfl

/-- Trimming a line that starts with `core` keeps `core` and cuts what follows. -/
theorem trim_line {lead core rest : List Char} (blank : AllBlank lead) (solid : Ddl.Solid core)
    (apart : Apart rest) :
    ∃ tail, trim (lead ++ (core ++ rest)) = core ++ tail ∧ Apart tail ∧
      trimStart tail = trim rest := by
  by_cases empty : trim rest = []
  · refine ⟨[], ?_, by simp [Apart], empty.symm⟩
    rw [Ddl.trim_between blank (trim_eq_nil.mp empty) solid, List.append_nil]
  · obtain ⟨front, back, split, before, after⟩ := Ddl.split_trim rest
    have inner := Ddl.solid_trim empty
    refine ⟨front ++ trim rest, ?_, fun c head => apart c ?_, ?_⟩
    · have whole : core ++ rest = (core ++ (front ++ trim rest)) ++ back := by
        rw [List.append_assoc, List.append_assoc, ← split]
      rw [whole]
      exact Ddl.trim_between blank after (solid_enclosed solid inner)
    · rw [split, ← List.append_assoc, List.head?_append_of_ne_nil _ (by simp [empty])]
      exact head
    · exact Ddl.dropWhile_blanks before inner.first

/-! ## Event lines -/

/-- The words of an event line with the gaps between them. -/
def eventWords (gap gap' : List Char) (signal event : String) : List Char :=
  "event".toList ++ (gap ++ (signal.toList ++ (gap' ++ event.toList)))

/-- What the payload of an event line should be, where `rest` stands behind the words. -/
def payloadOf (rest : List Char) : Option String :=
  if trim rest = [] then none else some (String.ofList (trim rest))

theorem isWord_event : IsWord "event".toList := by
  refine ⟨by decide, fun c member => ?_⟩
  have all : "event".toList.all isVisible = true := rfl
  simpa [isVisible] using List.all_eq_true.mp all c member

theorem apart_gap {gap rest : List Char} (blank : AllBlank gap) (nonempty : gap ≠ []) :
    Apart (gap ++ rest) := by
  intro c head
  rw [List.head?_append_of_ne_nil _ nonempty] at head
  exact blank c (List.mem_of_head? head)

/-- A gap in front of a visible character can be told from the text behind it. -/
theorem gap_inj {gap gap' text text' : List Char} (same : gap ++ text = gap' ++ text')
    (blank : AllBlank gap) (blank' : AllBlank gap')
    (visible : ∀ c, text.head? = some c → isWhitespace c = false)
    (visible' : ∀ c, text'.head? = some c → isWhitespace c = false) :
    gap = gap' ∧ text = text' := by
  have texts := congrArg (List.dropWhile isWhitespace) same
  rw [Ddl.dropWhile_blanks blank visible, Ddl.dropWhile_blanks blank' visible'] at texts
  subst texts
  exact ⟨List.append_cancel_right same, rfl⟩

variable {gap gap' tail : List Char} {signal event : String}

theorem stripPrefix_words (blank : AllBlank gap) (blank' : AllBlank gap')
    (first : IsWord signal.toList) (second : IsWord event.toList) :
    stripPrefix (eventPrefix signal event) (eventWords gap gap' signal event ++ tail) =
      if gap = [' '] ∧ gap' = [' '] then some tail else none := by
  have space : AllBlank [' '] := List.forall_mem_singleton.mpr rfl
  have prefix_eq : eventPrefix signal event = eventWords [' '] [' '] signal event := rfl
  rw [stripPrefix, prefix_eq]
  by_cases single : gap = [' '] ∧ gap' = [' ']
  · obtain ⟨rfl, rfl⟩ := single
    rw [if_pos (List.isPrefixOf_iff_prefix.mpr (List.prefix_append _ _)), if_pos ⟨rfl, rfl⟩,
      List.drop_left]
  · rw [if_neg single, if_neg]
    intro front
    obtain ⟨more, same⟩ := List.isPrefixOf_iff_prefix.mp front
    refine single ?_
    simp only [eventWords, List.append_assoc] at same
    have inner := List.append_cancel_left same
    obtain ⟨rfl, words⟩ := gap_inj inner space blank (first.first _) (first.first _)
    obtain ⟨rfl, _⟩ := gap_inj (List.append_cancel_left words) space blank' (second.first _)
      (second.first _)
    exact ⟨rfl, rfl⟩

/-- An event line is read as its first three words and a payload. -/
theorem parseCommand_words {line : String} {lead rest : List Char} (before : AllBlank lead)
    (blank : AllBlank gap) (blank' : AllBlank gap') (nonempty : gap ≠ []) (nonempty' : gap' ≠ [])
    (first : IsWord signal.toList) (second : IsWord event.toList) (apart : Apart rest)
    (whole : line.toList = lead ++ (eventWords gap gap' signal event ++ rest)) :
    parseCommand line = .ok (.event signal event
      (if gap = [' '] ∧ gap' = [' '] then payloadOf rest else none)) := by
  have solid : Ddl.Solid (eventWords gap gap' signal event) := by
    have outer : Ddl.Solid ("event".toList ++ ((gap ++ (signal.toList ++ gap')) ++ event.toList)) :=
      solid_enclosed isWord_event.solid second.solid
    simpa only [eventWords, List.append_assoc] using outer
  obtain ⟨tail, trimmed, stops, start⟩ := trim_line before solid apart
  have words : splitWhitespace (eventWords gap gap' signal event ++ tail) =
      "event" :: signal :: event :: splitWhitespace tail := by
    simp only [eventWords, List.append_assoc]
    have none_before : AllBlank [] := by simp [AllBlank]
    have stops' : Apart (gap ++ (signal.toList ++ (gap' ++ (event.toList ++ tail)))) :=
      apart_gap blank nonempty
    have opening := splitWhitespace_word none_before isWord_event
      stops'
    rw [List.nil_append] at opening
    rw [opening, splitWhitespace_word blank first (apart_gap blank' nonempty'),
      splitWhitespace_word blank' second stops]
  rw [parseCommand, whole, trimmed, words]
  show Except.ok (Command.event signal event _) = _
  rw [eventPayload, stripPrefix_words blank blank' first second]
  by_cases single : gap = [' '] ∧ gap' = [' ']
  · rw [if_pos single, if_pos single, Option.map_some, start, payloadOf]
    by_cases empty : trim rest = []
    · simp [empty]
    · simp [empty]
  · rw [if_neg single, if_neg single]
    rfl

/-- A line whose first three words are `event`, a signal and an event is read as an event
with everything behind the words as its payload, exactly if single blanks separate the words
or nothing follows them. -/
theorem parseCommand_event_iff {line signal event : String} {more : List String}
    (words : splitWhitespace line.toList = "event" :: signal :: event :: more) :
    ∃ lead gap gap' rest,
      line.toList = lead ++ (eventWords gap gap' signal event ++ rest) ∧ AllBlank lead ∧
      AllBlank gap ∧ gap ≠ [] ∧ AllBlank gap' ∧ gap' ≠ [] ∧ Apart rest ∧
      (parseCommand line = .ok (.event signal event (payloadOf rest)) ↔
        (gap = [' '] ∧ gap' = [' ']) ∨ AllBlank rest) := by
  obtain ⟨lead, rest₁, whole, before, _, apart₁, words₁⟩ := splitWhitespace_cons words
  obtain ⟨gap, rest₂, rfl, blank, first, apart₂, words₂⟩ := splitWhitespace_cons words₁
  obtain ⟨gap', rest, rfl, blank', second, apart, _⟩ := splitWhitespace_cons words₂
  -- a word that goes on needs a gap behind it
  have nonempty : ∀ {gap word rest : List Char}, Apart (gap ++ (word ++ rest)) → IsWord word →
      gap ≠ [] := by
    rintro _ word rest apart own rfl
    obtain ⟨c, cs, same⟩ := List.exists_cons_of_ne_nil own.nonempty
    have visible := own.visible c (same ▸ List.mem_cons_self)
    have blank := apart c (by rw [same]; rfl)
    rw [visible] at blank
    cases blank
  have line_eq : line.toList = lead ++ (eventWords gap gap' signal event ++ rest) := by
    simpa only [eventWords, List.append_assoc] using whole
  refine ⟨lead, gap, gap', rest, line_eq, before, blank, nonempty apart₁ first, blank',
    nonempty apart₂ second, apart, ?_⟩
  rw [parseCommand_words before blank blank' (nonempty apart₁ first) (nonempty apart₂ second) first
    second apart line_eq, ← trim_eq_nil]
  by_cases single : gap = [' '] ∧ gap' = [' ']
  · simp [single]
  · simp only [single, if_false, false_or]
    rw [payloadOf]
    by_cases empty : trim rest = []
    · simp [empty]
    · simp [empty]

/-- The words are separated by two blanks and by a tab. -/
def spacedLine : String := "event  order\tapprove \x7b\"amount\":5000\x7d"

theorem spacedLine_words : splitWhitespace spacedLine.toList =
    ["event", "order", "approve", "\x7b\"amount\":5000\x7d"] := by
  decide +kernel

theorem spacedLine_event_iff :
    ∃ lead gap gap' rest,
      spacedLine.toList = lead ++ (eventWords gap gap' "order" "approve" ++ rest) ∧
      AllBlank lead ∧ AllBlank gap ∧ gap ≠ [] ∧ AllBlank gap' ∧ gap' ≠ [] ∧ Apart rest ∧
      (parseCommand spacedLine = .ok (.event "order" "approve" (payloadOf rest)) ↔
        (gap = [' '] ∧ gap' = [' ']) ∨ AllBlank rest) :=
  parseCommand_event_iff spacedLine_words

/-- The payload is dropped. -/
theorem spacedLine_drops :
    splitWhitespace spacedLine.toList =
      ["event", "order", "approve", "\x7b\"amount\":5000\x7d"] ∧
    parseCommand spacedLine = .ok (.event "order" "approve" none) ∧
    parseCommand spacedLine ≠
      .ok (.event "order" "approve" (payloadOf " \x7b\"amount\":5000\x7d".toList)) := by
  have read : parseCommand spacedLine = .ok (.event "order" "approve" none) := by decide +kernel
  have expected : payloadOf " \x7b\"amount\":5000\x7d".toList =
      some "\x7b\"amount\":5000\x7d" := by decide +kernel
  refine ⟨by decide +kernel, read, ?_⟩
  rw [read, expected]
  simp

end SignalTopology.Sts
