import SignalTopology.Engine.Equivalent
import SignalTopology.Export.Snapshot
import SignalTopology.Library.Readback

/-!
# What a diagram tells

The labels of a diagram are quoted, so its text can be taken apart into lines whatever the names
are made of. A snapshot therefore tells the signals of an engine with the state each of them is
in, and the extended one also what became of the guards.
-/

namespace SignalTopology.Export

open Readback

/-! ## Pieces of a line -/

theorem escapeLabel_toList (input : String) : (escapeLabel input).toList =
    behindMark '\\' (fun c => c = '\\' || c = '"') input.toList := by
  unfold escapeLabel replaceChar behindMark
  rw [String.toList_ofList, List.flatMap_assoc]
  refine congrArg (fun f => List.flatMap f input.toList) (funext fun c => ?_)
  by_cases mark : c = '\\'
  · simp [mark]
  · by_cases quote : c = '"' <;> simp [mark, quote]

/-- A label up to its closing quote. -/
theorem label_delimits {α : Type} {S : Set α} (label : α → String) :
    Delimits S (fun a b => label a = label b) fun a => (escapeLabel (label a)).toList ++ ['"'] := by
  have escaped : Delimits Set.univ Eq fun text =>
      behindMark '\\' (fun c => c = '\\' || c = '"') text ++ ['"'] :=
    delimits_behindMark (by decide) rfl rfl
  refine (escaped.comap (fun a => (label a).toList) fun _ _ => trivial).mono (fun a => ?_)
    fun _ _ => String.toList_inj.mp
  rw [escapeLabel_toList]

theorem sanitizeId_blank (input : String) : ' ' ∉ (sanitizeId input).toList := by
  unfold sanitizeId
  rw [String.toList_ofList, List.mem_map]
  rintro ⟨c, _, blank⟩
  unfold sanitizeChar at blank
  split at blank
  · next letter =>
      subst blank
      exact absurd letter (by decide)
  · exact absurd blank (by decide)

theorem Node.id_blank (n : Node) : ' ' ∉ n.id.toList := by
  simp [Node.id, nodeId, sanitizeId_blank]

/-- A node up to the blank behind it. -/
theorem id_delimits {α : Type} {S : Set α} (node : α → Node) :
    Delimits S (fun a b => (node a).id.toList = (node b).id.toList) fun a =>
      (node a).id.toList ++ [' '] :=
  delimits_upTo (fun a => (node a).id.toList) ' ' fun a _ => (node a).id_blank

/-- The attributes of a node up to the closing bracket. -/
theorem attrs_delimits {α : Type} {S : Set α} (attrs : α → String)
    (tidy : ∀ a ∈ S, ']' ∉ (attrs a).toList) : Delimits S (fun a b => attrs a = attrs b) fun a =>
      (if attrs a = "" then "" else " " ++ attrs a).toList ++ [']'] := by
  refine (delimits_upTo (fun a => (if attrs a = "" then "" else " " ++ attrs a).toList) ']'
    fun a member => ?_).mono (fun _ => rfl) fun a b told => ?_
  · split
    · simp
    · simpa using tidy a member
  · have same := String.toList_inj.mp told
    split at same <;> split at same
    · next none none' => rw [none, none']
    · simp at same
    · simp at same
    · exact (String.append_right_inj _).mp same

/-! ## Lines -/

/-- What a line tells: not how its nodes are named, but all of its labels. -/
inductive Line.Like : Line → Line → Prop where
  | header : Like .header .header
  | cluster (signalId : String) : Like (.cluster signalId) (.cluster signalId)
  | node {n m : Node} (same : n.state = m.state) (attrs : String) :
      Like (.node n attrs) (.node m attrs)
  | gap : Like .gap .gap
  | edge (tail head tail' head' : Node) (label tooltip : String) :
      Like (.edge tail head label tooltip) (.edge tail' head' label tooltip)
  | clusterEnd : Like .clusterEnd .clusterEnd
  | reaction (tail head tail' head' : Node) (label color style : String) :
      Like (.reaction tail head label color style) (.reaction tail' head' label color style)
  | footer : Like .footer .footer

/-- The attributes end where they seem to. -/
def Line.Tidy : Line → Prop
  | node _ attrs => ']' ∉ attrs.toList
  | reaction _ _ _ color style => ' ' ∉ color.toList ∧ ']' ∉ style.toList
  | _ => True

theorem cluster_delimits : Delimits Set.univ Eq fun signalId =>
    (Line.cluster signalId).text.toList := by
  have pieces := ((((delimits_const (S := Set.univ) "  subgraph cluster_".toList).append
    (delimits_upTo (fun signalId => (sanitizeId signalId).toList) ' '
      fun signalId _ => sanitizeId_blank signalId)).append
    (delimits_const "\x7b\n    label=\"".toList)).append (label_delimits fun id => id)).append
    (delimits_const ";\n    style=rounded;\n    color=gray;\n\n".toList)
  exact pieces.mono (fun signalId => by simp [Line.text, clusterId]) fun _ _ told => told.1.2

theorem node_delimits : Delimits {n : Node × String | ']' ∉ n.2.toList}
    (fun n m => n.1.state = m.1.state ∧ n.2 = m.2) fun n => (Line.node n.1 n.2).text.toList := by
  have attributes := attrs_delimits (fun n : Node × String => n.2)
    fun n (tidy : ']' ∉ n.2.toList) => tidy
  have pieces := (((((delimits_const "    ".toList).append (id_delimits fun n => n.1)).append
    (delimits_const "[label=\"".toList)).append (label_delimits fun n => n.1.state)).append
    attributes).append (delimits_const ";\n".toList)
  exact pieces.mono (fun n => by simp [Line.text]) fun n m told => ⟨told.1.1.2, told.1.2⟩

/-- Both kinds of edges, up to the closing quote of the label. -/
theorem arrow_delimits {α : Type} {S : Set α} (indent : String) (tail head : α → Node)
    (label : α → String) : Delimits S (fun a b => label a = label b) fun a =>
      (indent ++ (tail a).id ++ " -> " ++ (head a).id ++ " [label=\"" ++
        escapeLabel (label a) ++ "\"").toList := by
  have pieces := (((((delimits_const (S := S) indent.toList).append (id_delimits tail)).append
    (delimits_const "-> ".toList)).append (id_delimits head)).append
    (delimits_const "[label=\"".toList)).append (label_delimits label)
  exact pieces.mono (fun a => by simp) fun _ _ told => told.2

theorem edge_delimits : Delimits Set.univ (fun e e' => e.2.2.1 = e'.2.2.1 ∧ e.2.2.2 = e'.2.2.2)
    fun e : Node × Node × String × String => (Line.edge e.1 e.2.1 e.2.2.1 e.2.2.2).text.toList := by
  have arrow := arrow_delimits (S := Set.univ) "    " (fun e : Node × Node × String × String => e.1)
    (fun e => e.2.1) fun e => e.2.2.1
  have pieces := ((arrow.append (delimits_const " tooltip=\"".toList)).append
    (label_delimits fun e => e.2.2.2)).append (delimits_const "];\n".toList)
  exact pieces.mono (fun e => by simp [Line.text]) fun e e' told => ⟨told.1.1.1, told.1.2⟩

theorem reaction_delimits :
    Delimits {e : Node × Node × String × String × String |
        ' ' ∉ e.2.2.2.1.toList ∧ ']' ∉ e.2.2.2.2.toList}
      (fun e e' => e.2.2.1 = e'.2.2.1 ∧ e.2.2.2.1 = e'.2.2.2.1 ∧ e.2.2.2.2 = e'.2.2.2.2)
      fun e => (Line.reaction e.1 e.2.1 e.2.2.1 e.2.2.2.1 e.2.2.2.2).text.toList := by
  have arrow := arrow_delimits (S := {e : Node × Node × String × String × String |
    ' ' ∉ e.2.2.2.1.toList ∧ ']' ∉ e.2.2.2.2.toList}) "  " (fun e => e.1) (fun e => e.2.1)
    fun e => e.2.2.1
  have pieces := ((((arrow.append (delimits_const " color=".toList)).append
    (delimits_upTo (fun e => e.2.2.2.1.toList) ' ' fun e tidy => tidy.1)).append
    (delimits_const "style=".toList)).append
    (delimits_upTo (fun e => e.2.2.2.2.toList) ']' fun e tidy => tidy.2)).append
    (delimits_const ";\n".toList)
  exact pieces.mono (fun e => by simp [Line.text]) fun e e' told => ⟨told.1.1.1.1.1,
    String.toList_inj.mp told.1.1.1.2, String.toList_inj.mp told.1.2⟩

/-- How a line starts: whether it is indented, and its first character behind that. -/
def opening : List Char → Bool × Char
  | ' ' :: ' ' :: c :: _ => (true, c)
  | c :: _ => (false, c)
  | [] => (false, ' ')

def Line.opening : Line → Bool × Char
  | header => (false, 'd')
  | cluster _ => (true, 's')
  | node .. | edge .. => (true, ' ')
  | gap => (false, '\n')
  | clusterEnd => (true, '\x7d')
  | reaction .. => (true, 'n')
  | footer => (false, '\x7d')

theorem opening_text (l : Line) (rest : List Char) :
    opening (l.text.toList ++ rest) = l.opening := by
  cases l <;> simp [Line.text, Line.opening, Node.id, nodeId, Export.opening]

/-- A node is not an edge: its id is not followed by an arrow. -/
theorem node_ne_edge {n tail head : Node} {attrs label tooltip : String} {rest rest' : List Char}
    (same : (Line.node n attrs).text.toList ++ rest =
      (Line.edge tail head label tooltip).text.toList ++ rest') : False := by
  simp [Line.text] at same
  have after := (ends_unique n.id_blank tail.id_blank same).2
  simp at after

/-- Every line tells where it ends and what it is. -/
theorem line_delimits : Delimits {l : Line | l.Tidy} Line.Like fun l => l.text.toList := by
  intro l tidy l' tidy' rest rest' same
  change l.text.toList ++ rest = l'.text.toList ++ rest' at same
  have opened := congrArg opening same
  rw [opening_text, opening_text] at opened
  cases l with
  | header =>
      cases l' <;> simp [Line.opening] at opened
      exact ⟨.header, List.append_cancel_left same⟩
  | gap =>
      cases l' <;> simp [Line.opening] at opened
      exact ⟨.gap, List.append_cancel_left same⟩
  | clusterEnd =>
      cases l' <;> simp [Line.opening] at opened
      exact ⟨.clusterEnd, List.append_cancel_left same⟩
  | footer =>
      cases l' <;> simp [Line.opening] at opened
      exact ⟨.footer, List.append_cancel_left same⟩
  | cluster signalId =>
      cases l' <;> simp [Line.opening] at opened
      next signalId' =>
        obtain ⟨rfl, after⟩ := @cluster_delimits signalId trivial signalId' trivial _ _ same
        exact ⟨.cluster signalId, after⟩
  | node n attrs =>
      cases l' <;> simp [Line.opening] at opened
      · next m attrs' =>
          obtain ⟨⟨state, rfl⟩, after⟩ := @node_delimits (n, attrs) tidy (m, attrs') tidy' _ _ same
          exact ⟨.node state attrs, after⟩
      · exact (node_ne_edge same).elim
  | edge tail head label tooltip =>
      cases l' <;> simp [Line.opening] at opened
      · exact (node_ne_edge same.symm).elim
      · next tail' head' label' tooltip' =>
          obtain ⟨⟨rfl, rfl⟩, after⟩ := @edge_delimits (tail, head, label, tooltip) trivial
            (tail', head', label', tooltip') trivial _ _ same
          exact ⟨.edge tail head tail' head' _ _, after⟩
  | reaction tail head label color style =>
      cases l' <;> simp [Line.opening] at opened
      next tail' head' label' color' style' =>
        obtain ⟨⟨rfl, rfl, rfl⟩, after⟩ := @reaction_delimits (tail, head, label, color, style) tidy
          (tail', head', label', color', style') tidy' _ _ same
        exact ⟨.reaction tail head tail' head' _ _ _, after⟩

/-- The text of a diagram tells its lines. -/
theorem render_tells {lines lines' : List Line} (tidy : ∀ l ∈ lines, l.Tidy)
    (tidy' : ∀ l ∈ lines', l.Tidy) (same : render lines = render lines') :
    List.Forall₂ Line.Like lines lines' := by
  have letters : ∀ lines, (render lines).toList = lines.flatMap fun l => l.text.toList := by
    intro lines
    unfold render
    rw [String.toList_join, List.flatMap_map]
  refine line_delimits.flatMap (fun l _ none => ?_) tidy tidy' (by rw [← letters, ← letters, same])
  have opened := opening_text l []
  rw [none] at opened
  cases l <;> simp [Line.opening, opening] at opened

/-! ## What the lines tell -/

/-- Reads a line when those behind it are read: the states whose signal is not reached yet, and
the signals with their states. -/
def readLine : Line → List (String × String) × List (String × List (String × String)) →
    List (String × String) × List (String × List (String × String))
  | .cluster signalId, (states, clusters) => ([], (signalId, states) :: clusters)
  | .node n attrs, (states, clusters) => ((n.state, attrs) :: states, clusters)
  | _, read => read

/-- Every signal with its states and their attributes. -/
def outline (lines : List Line) : List (String × List (String × String)) :=
  (lines.foldr readLine ([], [])).2

/-- What is written on the edge of a reaction. -/
def reactionNote : Line → Option (String × String × String)
  | .reaction _ _ label color style => some (label, color, style)
  | _ => none

theorem outline_like {lines lines' : List Line} (same : List.Forall₂ Line.Like lines lines') :
    outline lines = outline lines' := by
  refine congrArg Prod.snd ?_
  induction same with
  | nil => rfl
  | cons like _ ih =>
      rw [List.foldr_cons, List.foldr_cons, ih]
      cases like with
      | node same attrs => rw [readLine, readLine, same]
      | _ => rfl

theorem notes_like {lines lines' : List Line} (same : List.Forall₂ Line.Like lines lines') :
    lines.filterMap reactionNote = lines'.filterMap reactionNote := by
  induction same with
  | nil => rfl
  | cons like _ ih =>
      rw [List.filterMap_cons, List.filterMap_cons, ih]
      cases like <;> rfl

section

variable (schema : TopologySchema) (states : HashMap String)

/-- The edges of a transition are no clusters, no nodes and no reactions. -/
theorem transitionLines_edges (signal : SignalDef) (t : TransitionDef) (line : Line)
    (member : line ∈ transitionLines signal t) : ∃ tail head label tooltip,
      line = .edge tail head label tooltip := by
  obtain ⟨state, rfl, _⟩ := mem_transitionLines member
  exact ⟨_, _, _, _, rfl⟩

theorem readLine_edges {lines : List Line}
    (edges : ∀ line ∈ lines, ∃ tail head label tooltip, line = Line.edge tail head label tooltip)
    (read : List (String × String) × List (String × List (String × String))) :
    lines.foldr readLine read = read := by
  induction lines with
  | nil => rfl
  | cons line lines ih =>
      obtain ⟨tail, head, label, tooltip, rfl⟩ := edges line List.mem_cons_self
      exact ih fun line member => edges line (List.mem_cons_of_mem _ member)

/-- The cluster of a signal is read as the signal with its states. -/
theorem readLine_cluster (signal : SignalDef) (clusters : List (String × List (String × String))) :
    (clusterLines schema states signal).foldr readLine ([], clusters) =
      ([], (signal.id, signal.states.map fun state => (state, nodeAttrs states signal state)) ::
        clusters) := by
  have nodes : ∀ (names : List String) (read : List (String × String)),
      (names.map fun state => Line.node ⟨signal.id, state⟩ (nodeAttrs states signal state)).foldr
        readLine (read, clusters) =
      (names.map (fun state => (state, nodeAttrs states signal state)) ++ read, clusters) := by
    intro names read
    induction names with
    | nil => rfl
    | cons state names ih =>
        rw [List.map_cons, List.foldr_cons, ih]
        rfl
  have edges : ((schema.transitions.filter (·.signalId = signal.id)).flatMap
      (transitionLines signal)).foldr readLine ([], clusters) = ([], clusters) := by
    refine readLine_edges (fun line member => ?_) ([], clusters)
    obtain ⟨t, _, drawn⟩ := List.mem_flatMap.mp member
    exact transitionLines_edges signal t line drawn
  unfold clusterLines
  simp only [List.cons_append, List.append_assoc, List.foldr_cons, List.foldr_append,
    List.foldr_nil, readLine, edges, nodes, List.append_nil]

theorem skeleton_outline (behind : List Line) (read : List (String × List (String × String)))
    (silent : behind.foldr readLine ([], []) = ([], read)) :
    outline (skeleton schema states ++ behind) = schema.signals.map (fun signal => (signal.id,
      signal.states.map fun state => (state, nodeAttrs states signal state))) ++ read := by
  have clusters : ∀ signals : List SignalDef,
      (signals.flatMap (clusterLines schema states)).foldr readLine ([], read) =
        ([], signals.map (fun signal => (signal.id, signal.states.map fun state =>
          (state, nodeAttrs states signal state))) ++ read) := by
    intro signals
    induction signals with
    | nil => rfl
    | cons signal signals ih =>
        rw [List.flatMap_cons, List.foldr_append, ih, readLine_cluster]
        rfl
  unfold outline skeleton
  rw [List.foldr_append, silent, List.foldr_cons, clusters]
  rfl

theorem skeleton_notes : (skeleton schema states).filterMap reactionNote = [] := by
  refine List.filterMap_eq_nil_iff.mpr fun line member => ?_
  obtain rfl | ⟨signal, _, rfl | ⟨state, _, rfl⟩ | rfl | ⟨t, _, _, drawn⟩ | rfl⟩ :=
    mem_skeleton.mp member
  · rfl
  · rfl
  · rfl
  · rfl
  · obtain ⟨tail, head, label, tooltip, rfl⟩ := transitionLines_edges signal t line drawn
    rfl
  · rfl

theorem nodeAttrs_tidy (signal : SignalDef) (state : String) :
    ']' ∉ (nodeAttrs states signal state).toList := by
  unfold nodeAttrs
  split
  · decide
  · split <;> decide

theorem skeleton_tidy : ∀ line ∈ skeleton schema states, line.Tidy := by
  intro line member
  obtain rfl | ⟨signal, _, rfl | ⟨state, _, rfl⟩ | rfl | ⟨t, _, _, drawn⟩ | rfl⟩ :=
    mem_skeleton.mp member
  · trivial
  · trivial
  · exact nodeAttrs_tidy states signal state
  · trivial
  · obtain ⟨tail, head, label, tooltip, rfl⟩ := transitionLines_edges signal t line drawn
    trivial
  · trivial

theorem guardStyle_tidy (result : Option String) :
    ' ' ∉ (guardStyle result).1.toList ∧ ']' ∉ (guardStyle result).2.toList := by
  unfold guardStyle
  split
  · split
    · decide
    · split
      · decide
      · split <;> decide
  · decide

theorem reactionLine_tidy {guardInfo : GuardInfo} {reaction : ReactionDef} {line : Line}
    (drawn : reactionLine schema states guardInfo reaction = some line) : line.Tidy := by
  obtain ⟨head, _, rfl⟩ := Option.map_eq_some_iff.mp drawn
  exact guardStyle_tidy _

end

section

variable {schema schema' : TopologySchema} {states states' : HashMap String}

/-- The text of a diagram tells the signals, their states, and how these are marked. -/
theorem stateLines_tell (same : toDotWithState schema states = toDotWithState schema' states') :
    outline (stateLines schema states) = outline (stateLines schema' states') := by
  have tidy : ∀ (schema : TopologySchema) (states : HashMap String),
      ∀ line ∈ stateLines schema states, line.Tidy := fun schema states =>
    List.forall_mem_append.mpr ⟨skeleton_tidy schema states, List.forall_mem_singleton.mpr trivial⟩
  exact outline_like (render_tells (tidy schema states) (tidy schema' states') same)

theorem extendedLines_tidy (guardInfo : GuardInfo) :
    ∀ line ∈ extendedLines schema states guardInfo, line.Tidy := by
  refine List.forall_mem_append.mpr ⟨skeleton_tidy schema states, List.forall_mem_append.mpr
    ⟨fun line member => ?_, List.forall_mem_singleton.mpr trivial⟩⟩
  obtain ⟨reaction, _, drawn⟩ := List.mem_filterMap.mp member
  exact reactionLine_tidy schema states drawn

/-- Behind the clusters there are only edges of reactions. -/
theorem reactionLines_silent (guardInfo : GuardInfo) (reactions : List ReactionDef) :
    (reactions.filterMap (reactionLine schema states guardInfo) ++ [Line.footer]).foldr readLine
      ([], []) = ([], []) := by
  induction reactions with
  | nil => rfl
  | cons reaction reactions ih =>
      rw [List.filterMap_cons]
      cases drawn : reactionLine schema states guardInfo reaction with
      | none => exact ih
      | some line =>
          obtain ⟨head, _, rfl⟩ := Option.map_eq_some_iff.mp drawn
          exact ih

/-- Two outlines that are the same, signal by signal. -/
theorem outline_tells (same : schema.signals.map (fun signal => (signal.id, signal.states.map
      fun state => (state, nodeAttrs states signal state))) =
    schema'.signals.map (fun signal => (signal.id, signal.states.map
      fun state => (state, nodeAttrs states' signal state)))) :
    List.Forall₂ (fun signal signal' => signal'.id = signal.id ∧ signal'.states = signal.states ∧
      ∀ state ∈ signal.states, nodeAttrs states signal state = nodeAttrs states' signal' state)
      schema.signals schema'.signals := by
  rw [← List.forall₂_eq_eq_eq, List.forall₂_map_left_iff, List.forall₂_map_right_iff] at same
  refine same.imp fun signal signal' equal => ?_
  obtain ⟨id, marked⟩ := Prod.mk.inj equal
  have names := congrArg (List.map Prod.fst) marked
  rw [List.map_map, List.map_map] at names
  have names : signal.states = signal'.states := by simpa [Function.comp_def] using names
  rw [← names] at marked
  refine ⟨id.symm, names.symm, fun state member => ?_⟩
  exact (Prod.mk.inj (List.map_inj_left.mp marked state member)).2

/-- Where every reaction has a target to be drawn to, the edges tell what is written on them. -/
theorem extendedLines_notes {guardInfo : GuardInfo}
    (anchored : ∀ reaction ∈ schema.reactions, ∃ n, anchorNode schema reaction.toSignal = some n) :
    (extendedLines schema states guardInfo).filterMap reactionNote =
      schema.reactions.map fun reaction =>
        (reactionLabel reaction (guardInfo.lookup (reactionKey reaction)),
          guardStyle (guardInfo.lookup (reactionKey reaction))) := by
  unfold extendedLines
  rw [List.filterMap_append, skeleton_notes, List.nil_append, List.filterMap_append]
  generalize schema.reactions = reactions at anchored
  induction reactions with
  | nil => rfl
  | cons reaction reactions ih =>
      obtain ⟨n, anchor⟩ := anchored reaction List.mem_cons_self
      have drawn : reactionLine schema states guardInfo reaction = some (.reaction
          (reactionFromNode schema states reaction) n
          (reactionLabel reaction (guardInfo.lookup (reactionKey reaction)))
          (guardStyle (guardInfo.lookup (reactionKey reaction))).1
          (guardStyle (guardInfo.lookup (reactionKey reaction))).2) := by
        rw [reactionLine, anchor]
        rfl
      rw [List.filterMap_cons_some drawn, List.map_cons,
        ← ih fun other member => anchored other (List.mem_cons_of_mem reaction member)]
      rfl

theorem reactionLabel_tells {reaction : ReactionDef} {result result' : Option String}
    (same : reactionLabel reaction result = reactionLabel reaction result') :
    result.getD "not evaluated" = result'.getD "not evaluated" := by
  unfold reactionLabel at same
  rw [String.append_left_inj, String.append_right_inj] at same
  exact same

end

end SignalTopology.Export

namespace SignalTopology

open Sequencing TopologyEngine Export

variable {W : Type}

/-- Where two marks stand on the same states, so do the states they mark. -/
theorem marks_tell {states : HashMap String} {states' : HashMap String}
    {signal signal' : SignalDef} {current current' : String}
    (found : states.lookup signal.id = some current)
    (found' : states'.lookup signal'.id = some current')
    (legal : current ∈ signal.states ∧ signal.initialState ∈ signal.states)
    (legal' : current' ∈ signal.states ∧ signal'.initialState ∈ signal.states)
    (same : ∀ state ∈ signal.states,
      nodeAttrs states signal state = nodeAttrs states' signal' state) :
    current = current' ∧ signal.initialState = signal'.initialState := by
  simp only [nodeAttrs, found, found', Option.some.injEq] at same
  have moved : current = current' := by
    have here := same current legal.1
    rw [if_pos rfl] at here
    split at here
    · next equal => exact equal.symm
    · split at here <;> simp at here
  subst moved
  refine ⟨rfl, ?_⟩
  by_cases start : current = signal.initialState
  · by_cases start' : current = signal'.initialState
    · exact start.symm.trans start'
    · have there := same signal'.initialState legal'.2
      rw [if_neg start', if_neg start', if_pos rfl] at there
      split at there
      · next equal => exact equal.symm
      · simp at there
  · have there := same signal.initialState legal.2
    rw [if_neg start, if_neg start, if_pos rfl] at there
    split at there
    · next equal => exact equal
    · simp at there

section

variable [RustStd] [SerdeJson] {ops : List (Operation W)}

/-- What no operation but a reload writes. -/
theorem execute_declared (keeps : ∀ op ∈ ops, ∀ json, op ≠ .reloadTopology json)
    (engine : TopologyEngine W) : (execute engine ops).declared = engine.declared := by
  induction ops using List.reverseRecOn with
  | nil => rfl
  | append_singleton ops op ih =>
      rw [execute_append, ← ih fun op member => keeps op (by simp [member])]
      cases op with
      | sendEvent signalId event payload =>
          obtain ⟨_, _, leads⟩ := Recorded.sendEvent (execute engine ops) signalId event payload
          funext id
          have walked := leads id
          show ((execute engine ops).sendEvent signalId event payload).2.declared id = _
          unfold declared
          generalize (execute engine ops).signals.lookup id = old at walked
          generalize ((execute engine ops).sendEvent signalId event payload).2.signals.lookup id =
            new at walked
          cases walked with
          | absent => rfl
          | present states initialState =>
              rw [Option.map_some, Option.map_some, states, initialState]
      | loadState file =>
          show ((execute engine ops).loadState file).2.declared = _
          unfold TopologyEngine.loadState
          cases file with
          | error => rfl
          | ok snapshot =>
              dsimp only
              split
              · rfl
              · exact (foldl_setCurrent_frame snapshot.states.entries _ rfl).2.2.2
      | reloadTopology json => exact absurd rfl (keeps _ (by simp) json)
      | registerAction | setMaxCascadeDepth | environment => rfl

/-- In an engine that is not reloaded every signal is in a state of its own, and starts in one. -/
theorem execute_anchored {world : W} {schema : TopologySchema} {engine : TopologyEngine W}
    (built : fromSchema world schema = .ok engine)
    (keeps : ∀ op ∈ ops, ∀ json, op ≠ .reloadTopology json) {id : String} {signal : SignalState}
    (found : (execute engine ops).signals.lookup id = some signal) :
    signal.current ∈ signal.states ∧ signal.initialState ∈ signal.states := by
  obtain ⟨flat, _, valid, signals, _⟩ := fromSchema_spec built
  have sound : (execute engine ops).Sound := by
    refine execute_sound (fromSchema_sound built) fun before json after split => ?_
    exact absurd rfl (keeps (.reloadTopology json) (by simp [split]) json)
  refine ⟨sound.legal id signal found, ?_⟩
  have kept : (execute engine ops).declared id = engine.declared id := by
    rw [execute_declared keeps]
  unfold declared at kept
  rw [found, signals, Option.map_some] at kept
  obtain ⟨start, known, same⟩ := Option.map_eq_some_iff.mp kept.symm
  obtain ⟨sig, declared, _, rfl⟩ := signalTable_some valid.distinct known
  obtain ⟨states, initialState⟩ := Prod.mk.inj same
  rw [← states, ← initialState]
  exact valid.initial sig declared

/-- The table of current states, entry by entry. -/
theorem execute_held {world : W} {schema : TopologySchema} {engine : TopologyEngine W}
    (built : fromSchema world schema = .ok engine)
    (keeps : ∀ op ∈ ops, ∀ json, op ≠ .reloadTopology json) :
    ∀ entry ∈ (execute engine ops).signals.entries,
      (execute engine ops).currentStates.lookup entry.1 = some entry.2.current ∧
        entry.2.current ∈ entry.2.states ∧ entry.2.initialState ∈ entry.2.states := by
  intro entry member
  have found : (execute engine ops).signals.lookup entry.1 = some entry.2 :=
    AList.mem_lookup_iff.mpr member
  refine ⟨(saveState_lookup (execute engine ops) entry.1).trans ?_,
    execute_anchored built keeps found⟩
  rw [TopologyEngine.current, found]
  rfl

/-- Every reaction of a built engine is drawn. -/
theorem execute_anchor {world : W} {schema : TopologySchema} {engine : TopologyEngine W}
    (built : fromSchema world schema = .ok engine)
    (keeps : ∀ op ∈ ops, ∀ json, op ≠ .reloadTopology json) {reaction : ReactionDef}
    (declared : reaction ∈ engine.reactions) :
    ∃ n, anchorNode (execute engine ops).snapshotSchema reaction.toSignal = some n := by
  obtain ⟨flat, _, validated, same⟩ := fromSchema_iff.mp built
  obtain ⟨checked, ends⟩ := validate_iff.mp validated
  rw [same] at declared
  obtain ⟨signal, listed, target⟩ := List.mem_map.mp (ends reaction declared).2
  have space : (execute engine ops).space reaction.toSignal = some signal.states := by
    rw [execute_space keeps, TopologyEngine.space, same, ← target,
      signalTable_member checked.distinct (·.initialState) listed]
    rfl
  exact anchorNode_some space (List.ne_nil_of_mem (checked.initial signal listed))

/-- What is recorded of a guard is never the text for a guard that was not evaluated. -/
theorem execute_verdict {world : W} {schema : TopologySchema} {engine : TopologyEngine W}
    (built : fromSchema world schema = .ok engine)
    (keeps : ∀ op ∈ ops, ∀ json, op ≠ .reloadTopology json) {key : ReactionKey} :
    (guardInfoFromTraces (execute engine ops).trace).lookup key ≠ some "not evaluated" := by
  intro found
  obtain ⟨_, _, _, _, _, _, _, fresh⟩ := fromSchema_spec built
  obtain ⟨none, _⟩ | ⟨k, result, last, recorded, _⟩ :=
    guardInfo_cases (execute engine ops).trace key
  · rw [none] at found
    cases found
  · rw [last] at found
    obtain rfl := Option.some.inj found
    obtain ⟨_, _, outcome, _, _, _, _, text⟩ := recorded.evaluated fresh keeps
    cases outcome with
    | ok passed => cases passed <;> exact absurd text (by decide)
    | error msg =>
        have letters := congrArg String.toList text
        simp [guardResult] at letters

end

/-- Signals that are drawn alike are the same. -/
theorem entries_tell {states states' : HashMap String}
    {entries entries' : List (Sigma fun _ : String => SignalState)}
    (held : ∀ entry ∈ entries, states.lookup entry.1 = some entry.2.current ∧
      entry.2.current ∈ entry.2.states ∧ entry.2.initialState ∈ entry.2.states)
    (held' : ∀ entry ∈ entries', states'.lookup entry.1 = some entry.2.current ∧
      entry.2.current ∈ entry.2.states ∧ entry.2.initialState ∈ entry.2.states)
    (same : List.Forall₂ (fun signal signal' : SignalDef => signal'.id = signal.id ∧
        signal'.states = signal.states ∧ ∀ state ∈ signal.states,
          nodeAttrs states signal state = nodeAttrs states' signal' state)
      (entries.map fun entry => ⟨entry.1, entry.2.initialState, entry.2.states⟩)
      (entries'.map fun entry => ⟨entry.1, entry.2.initialState, entry.2.states⟩)) :
    entries = entries' := by
  induction entries generalizing entries' with
  | nil =>
      cases entries' with
      | nil => rfl
      | cons => cases same
  | cons entry entries ih =>
      cases entries' with
      | nil => cases same
      | cons entry' entries' =>
          obtain ⟨id, current, names, initial⟩ := entry
          obtain ⟨id', current', names', initial'⟩ := entry'
          obtain ⟨⟨named, listed, marked⟩, rest⟩ := List.forall₂_cons.mp same
          dsimp only at named listed
          subst named
          subst listed
          obtain ⟨known, legal⟩ := held _ List.mem_cons_self
          obtain ⟨known', legal'⟩ := held' _ List.mem_cons_self
          obtain ⟨moved, started⟩ := marks_tell known known' legal legal' marked
          dsimp only at moved started
          subst moved
          subst started
          rw [ih (fun entry member => held entry (List.mem_cons_of_mem _ member))
            (fun entry member => held' entry (List.mem_cons_of_mem _ member)) rest]

section

variable [RustStd] [SerdeJson] {W' : Type}

/-- Engines whose diagrams have the same outline are in the same states. -/
theorem outlines_tell {world : W} {world' : W'} {schema schema' : TopologySchema}
    {engine : TopologyEngine W} {engine' : TopologyEngine W'}
    (built : fromSchema world schema = .ok engine)
    (built' : fromSchema world' schema' = .ok engine')
    {ops : List (Operation W)} {ops' : List (Operation W')}
    (keeps : ∀ op ∈ ops, ∀ json, op ≠ .reloadTopology json)
    (keeps' : ∀ op ∈ ops', ∀ json, op ≠ .reloadTopology json)
    (same : (execute engine ops).snapshotSchema.signals.map (fun signal => (signal.id,
        signal.states.map fun state =>
          (state, nodeAttrs (execute engine ops).currentStates signal state))) =
      (execute engine' ops').snapshotSchema.signals.map (fun signal => (signal.id,
        signal.states.map fun state =>
          (state, nodeAttrs (execute engine' ops').currentStates signal state)))) (id : String) :
    (execute engine ops).signals.lookup id = (execute engine' ops').signals.lookup id := by
  exact congrArg (AList.lookup id) (AList.ext (entries_tell
    (execute_held built keeps) (execute_held built' keeps') (outline_tells same)))

/-- The diagram of a running engine tells its states and its verdicts. Two engines, of
whatever topologies, with the same snapshot have the same signals with the same states and are in
the same states; if the snapshots are extended ones and the reactions are the same, then the last
result for each reaction is the same as well, or there is none in either log. -/
theorem snapshot_tells {world : W} {world' : W'} {schema schema' : TopologySchema}
    {engine : TopologyEngine W} {engine' : TopologyEngine W'}
    (built : fromSchema world schema = .ok engine)
    (built' : fromSchema world' schema' = .ok engine')
    {ops : List (Operation W)} {ops' : List (Operation W')}
    (keeps : ∀ op ∈ ops, ∀ json, op ≠ .reloadTopology json)
    (keeps' : ∀ op ∈ ops', ∀ json, op ≠ .reloadTopology json) :
    ((execute engine ops).snapshotDot = (execute engine' ops').snapshotDot → ∀ id,
      (execute engine ops).signals.lookup id = (execute engine' ops').signals.lookup id) ∧
    ((execute engine ops).snapshotDotExtended = (execute engine' ops').snapshotDotExtended →
      (∀ id, (execute engine ops).signals.lookup id = (execute engine' ops').signals.lookup id) ∧
      (engine.reactions = engine'.reactions → ∀ reaction ∈ engine.reactions,
        (guardInfoFromTraces (execute engine ops).trace).lookup (reactionKey reaction) =
          (guardInfoFromTraces (execute engine' ops').trace).lookup (reactionKey reaction))) := by
  constructor
  · intro same
    have outlines := stateLines_tell same
    unfold stateLines at outlines
    rw [skeleton_outline _ _ _ [] rfl, skeleton_outline _ _ _ [] rfl, List.append_nil,
      List.append_nil] at outlines
    exact outlines_tell built built' keeps keeps' outlines
  · intro same
    have lines := render_tells (extendedLines_tidy _) (extendedLines_tidy _) same
    constructor
    · have outlines := outline_like lines
      unfold extendedLines at outlines
      rw [skeleton_outline _ _ _ [] (reactionLines_silent _ _),
        skeleton_outline _ _ _ [] (reactionLines_silent _ _), List.append_nil,
        List.append_nil] at outlines
      exact outlines_tell built built' keeps keeps' outlines
    · intro alike reaction declared
      have kept : (execute engine ops).reactions = engine.reactions :=
        execute_reactions keeps engine
      have kept' : (execute engine' ops').reactions = engine.reactions :=
        (execute_reactions keeps' engine').trans alike.symm
      have notes := notes_like lines
      rw [extendedLines_notes fun reaction member => execute_anchor built keeps (kept ▸ member),
        extendedLines_notes fun reaction member => execute_anchor built' keeps'
          (alike ▸ kept' ▸ member)] at notes
      change (execute engine ops).reactions.map _ = (execute engine' ops').reactions.map _ at notes
      rw [kept, kept'] at notes
      have told := reactionLabel_tells
        (Prod.mk.inj (List.map_inj_left.mp notes reaction declared)).1
      have never : (guardInfoFromTraces (execute engine ops).trace).lookup (reactionKey reaction) ≠
        some "not evaluated" := execute_verdict built keeps
      have never' : (guardInfoFromTraces (execute engine' ops').trace).lookup
        (reactionKey reaction) ≠ some "not evaluated" := execute_verdict built' keeps'
      generalize (guardInfoFromTraces (execute engine ops).trace).lookup (reactionKey reaction) =
        result at told never
      generalize (guardInfoFromTraces (execute engine' ops').trace).lookup (reactionKey reaction) =
        result' at told never'
      cases result <;> cases result' <;> simp_all

end

/-- The door moves once, or twice: the diagrams are the same, and so is the last verdict. -/
theorem nightEngine_told :
    (guardInfoFromTraces (@execute Unit .ascii nightSerde nightEngine nightRun).trace).lookup
        ("door", "active", "lamp", "move") =
      (guardInfoFromTraces (@execute Unit .ascii nightSerde nightEngine
        (nightRun ++ nightRun)).trace).lookup ("door", "active", "lamp", "move") := by
  have told :=
    (@snapshot_tells Unit .ascii nightSerde Unit () () nightSchema nightSchema nightEngine
    nightEngine nightEngine_built nightEngine_built nightRun (nightRun ++ nightRun)
    (by simp [nightRun]) (by simp [nightRun])).2 (by decide +kernel)
  exact told.2 rfl _ List.mem_cons_self

end SignalTopology
