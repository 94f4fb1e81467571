import Mathlib.Data.List.Forall2
import SignalTopology.Engine.Validation

/-!
# Diagrams

`to_dot`, `to_dot_with_state` and `to_dot_extended` write a topology in the DOT language.
A diagram is a list of lines, each with the signals and states it is about; `Line.text` is
what is written, and only there does a state become the id of its node.
-/

namespace SignalTopology.Export

/-! ## Texts -/

/-- `str::replace` of one character by a text. -/
def replaceChar (c : Char) (text cs : List Char) : List Char :=
  cs.flatMap fun d => if d = c then text else [d]

def escapeLabel (input : String) : String :=
  String.ofList (replaceChar '"' ['\\', '"'] (replaceChar '\\' ['\\', '\\'] input.toList))

def sanitizeChar (c : Char) : Char := if c.isAlphanum then c else '_'

def sanitizeId (input : String) : String := String.ofList (input.toList.map sanitizeChar)

def nodeId (signalId state : String) : String :=
  "n_" ++ sanitizeId signalId ++ "_" ++ sanitizeId state

/-- The name of the subgraph of a signal. -/
def clusterId (signalId : String) : String := "cluster_" ++ sanitizeId signalId

def edgeLabel (transition : TransitionDef) : String :=
  let actions := transition.actions.allActions
  if actions = [] then transition.event
  else transition.event ++ " [" ++ ", ".intercalate actions ++ "]"

def edgeTooltip (transition : TransitionDef) : String :=
  let actions := transition.actions.allActions
  let step := transition.event ++ ": " ++ transition.fromState ++ " -> " ++ transition.toState
  if actions = [] then step else step ++ "\\nactions: " ++ ", ".intercalate actions

/-! ## Lines -/

/-- A state of a signal. -/
structure Node where
  signalId : String
  state : String
  deriving DecidableEq

def Node.id (n : Node) : String := nodeId n.signalId n.state

inductive Line where
  | header
  | cluster (signalId : String)
  | node (node : Node) (attrs : String)
  | gap
  | edge (tail head : Node) (label tooltip : String)
  | clusterEnd
  | reaction (tail head : Node) (label color style : String)
  | footer
  deriving DecidableEq

def Line.text : Line → String
  | header => "digraph Topology \x7b\n  rankdir=LR;\n  node [shape=ellipse];\n\n"
  | cluster signalId =>
      "  subgraph " ++ clusterId signalId ++ " \x7b\n    label=\"" ++ escapeLabel signalId ++
        "\";\n    style=rounded;\n    color=gray;\n\n"
  | node n attrs =>
      "    " ++ n.id ++ " [label=\"" ++ escapeLabel n.state ++ "\"" ++
        (if attrs = "" then "" else " " ++ attrs) ++ "];\n"
  | gap => "\n"
  | edge tail head label tooltip =>
      "    " ++ tail.id ++ " -> " ++ head.id ++ " [label=\"" ++ escapeLabel label ++
        "\" tooltip=\"" ++ escapeLabel tooltip ++ "\"];\n"
  | clusterEnd => "  \x7d\n"
  | reaction tail head label color style =>
      "  " ++ tail.id ++ " -> " ++ head.id ++ " [label=\"" ++ escapeLabel label ++ "\" color=" ++
        color ++ " style=" ++ style ++ "];\n"
  | footer => "\x7d\n"

def render (lines : List Line) : String := String.join (lines.map Line.text)

section

variable (schema : TopologySchema) (states : HashMap String)

/-- The current state outranks the initial one. -/
def nodeAttrs (signal : SignalDef) (state : String) : String :=
  if states.lookup signal.id = some state then "style=filled fillcolor=lightgreen penwidth=2"
  else if state = signal.initialState then "style=filled fillcolor=lightblue"
  else ""

/-- A wildcard is drawn from every state but the target. -/
def transitionLines (signal : SignalDef) (transition : TransitionDef) : List Line :=
  let edge state := Line.edge ⟨signal.id, state⟩ ⟨signal.id, transition.toState⟩
    (edgeLabel transition) (edgeTooltip transition)
  if transition.fromState = "*" then (signal.states.filter (· ≠ transition.toState)).map edge
  else [edge transition.fromState]

def clusterLines (signal : SignalDef) : List Line :=
  .cluster signal.id ::
    (signal.states.map fun state => .node ⟨signal.id, state⟩ (nodeAttrs states signal state)) ++
    .gap :: (schema.transitions.filter (·.signalId = signal.id)).flatMap (transitionLines signal) ++
    [.clusterEnd]

/-- The part both renderers share. -/
def skeleton : List Line := .header :: schema.signals.flatMap (clusterLines schema states)

def stateLines : List Line := skeleton schema states ++ [.footer]

def toDotWithState : String := render (stateLines schema states)

def toDot : String := toDotWithState schema ∅

/-! ## Reactions -/

/-- What identifies a reaction in the guard results. -/
abbrev ReactionKey := String × String × String × String

def reactionKey (reaction : ReactionDef) : ReactionKey :=
  (reaction.fromSignal, reaction.fromState, reaction.toSignal, reaction.event)

/-- `HashMap<(String, String, String, String), String>`. -/
abbrev GuardInfo := AList fun _ : ReactionKey => String

/-- `str::starts_with`. -/
def startsWith (front text : String) : Bool := front.toList.isPrefixOf text.toList

/-- The color and the style of a reaction edge. -/
def guardStyle : Option String → String × String
  | some result =>
      if startsWith "true" result then ("green", "solid")
      else if startsWith "false" result then ("gray", "dashed")
      else if startsWith "error" result then ("red", "dashed")
      else ("black", "dashed")
  | none => ("black", "dashed")

def reactionLabel (reaction : ReactionDef) (result : Option String) : String :=
  reaction.event ++ " [guard: " ++ result.getD "not evaluated" ++ "]"

def reactionFromNode (reaction : ReactionDef) : Node :=
  if reaction.fromState ≠ "*" then ⟨reaction.fromSignal, reaction.fromState⟩
  else
    let initial := (schema.signals.find? (·.id = reaction.fromSignal)).map (·.initialState)
    ⟨reaction.fromSignal, ((states.lookup reaction.fromSignal).or initial).getD ""⟩

def anchorNode (signalId : String) : Option Node :=
  (schema.signals.find? (·.id = signalId)).bind fun signal =>
    signal.states.head?.map fun state => ⟨signalId, state⟩

/-- One edge for each reaction. -/
def reactionLine (guardInfo : GuardInfo) (reaction : ReactionDef) : Option Line :=
  (anchorNode schema reaction.toSignal).map fun head =>
    let result := guardInfo.lookup (reactionKey reaction)
    .reaction (reactionFromNode schema states reaction) head (reactionLabel reaction result)
      (guardStyle result).1 (guardStyle result).2

def extendedLines (guardInfo : GuardInfo) : List Line :=
  skeleton schema states ++
    (schema.reactions.filterMap (reactionLine schema states guardInfo) ++ [.footer])

def toDotExtended (guardInfo : GuardInfo) : String :=
  render (extendedLines schema states guardInfo)

end

/-! ## Names that cannot be told apart -/

/-- Two characters that are written alike in an id. -/
def Similar (c d : Char) : Prop := c = d ∨ c.isAlphanum = false ∧ d.isAlphanum = false

/-- The same text up to characters that are neither letters nor digits. -/
def Alike (s t : String) : Prop := List.Forall₂ Similar s.toList t.toList

/-- The signal and its state in one word. -/
def Node.name (n : Node) : String := n.signalId ++ "_" ++ n.state

theorem sanitizeChar_eq_iff {c d : Char} : sanitizeChar c = sanitizeChar d ↔ Similar c d := by
  have other : ∀ {c : Char}, c.isAlphanum = true → c ≠ '_' := by
    rintro _ letter rfl
    exact absurd letter (by decide)
  unfold sanitizeChar Similar
  cases first : c.isAlphanum <;> cases second : d.isAlphanum
  · simp
  · simp only [Bool.false_eq_true, if_false, if_true, Bool.true_eq_false, and_false, or_false]
    exact ⟨fun same => absurd same.symm (other second), fun same => by
      rw [same, second] at first
      cases first⟩
  · simp only [Bool.false_eq_true, if_false, if_true, Bool.true_eq_false, false_and, or_false]
    exact ⟨fun same => absurd same (other first), fun same => by
      rw [same, second] at first
      cases first⟩
  · simp

theorem sanitizeId_eq_iff {s t : String} : sanitizeId s = sanitizeId t ↔ Alike s t := by
  rw [sanitizeId, sanitizeId, String.ofList_inj, Alike]
  generalize s.toList = cs
  generalize t.toList = ds
  induction cs generalizing ds with
  | nil => cases ds <;> simp
  | cons c cs ih =>
      cases ds with
      | nil => simp
      | cons d ds => rw [List.map_cons, List.map_cons, List.cons.injEq, List.forall₂_cons, ih,
          sanitizeChar_eq_iff]

theorem clusterId_eq_iff {s t : String} : clusterId s = clusterId t ↔ Alike s t := by
  rw [clusterId, clusterId, String.append_right_inj, sanitizeId_eq_iff]

theorem Node.id_eq_iff {n m : Node} : n.id = m.id ↔ Alike n.name m.name := by
  have joined : ∀ n : Node, n.id = "n_" ++ sanitizeId n.name := by
    intro n
    apply String.toList_inj.mp
    simp [Node.id, nodeId, Node.name, sanitizeId, sanitizeChar]
  rw [joined, joined, String.append_right_inj, sanitizeId_eq_iff]

/-! ## What a diagram names -/

/-- The nodes whose ids a line writes. -/
def Line.nodes : Line → List Node
  | node n _ => [n]
  | edge tail head _ _ | reaction tail head _ _ _ => [tail, head]
  | _ => []

def Line.clusters : Line → List String
  | cluster signalId => [signalId]
  | _ => []

/-- The states a topology declares. -/
def declaredNodes (schema : TopologySchema) : List Node :=
  schema.signals.flatMap fun signal => signal.states.map (⟨signal.id, ·⟩)

/-- The states that the reactions of a topology are drawn from. -/
def watchedNodes (schema : TopologySchema) (states : HashMap String) : List Node :=
  schema.reactions.map (reactionFromNode schema states)

section

variable {schema : TopologySchema} {states : HashMap String}

theorem mem_declaredNodes {n : Node} : n ∈ declaredNodes schema ↔
    ∃ signal ∈ schema.signals, signal.id = n.signalId ∧ n.state ∈ signal.states := by
  rw [declaredNodes, List.mem_flatMap]
  refine exists_congr fun signal => and_congr_right fun _ => ?_
  rw [List.mem_map]
  constructor
  · rintro ⟨state, member, rfl⟩
    exact ⟨rfl, member⟩
  · rintro ⟨own, member⟩
    exact ⟨n.state, member, by rw [own]⟩

/-- The edges of a transition start in the states it is declared for. -/
theorem mem_transitionLines {signal : SignalDef} {t : TransitionDef} {line : Line}
    (member : line ∈ transitionLines signal t) :
    ∃ state, line = .edge ⟨signal.id, state⟩ ⟨signal.id, t.toState⟩ (edgeLabel t) (edgeTooltip t) ∧
      (t.fromState = state ∧ t.fromState ≠ "*" ∨ t.fromState = "*" ∧ state ∈ signal.states) := by
  rw [transitionLines] at member
  split at member
  · next wild =>
      obtain ⟨state, listed, rfl⟩ := List.mem_map.mp member
      exact ⟨state, rfl, .inr ⟨wild, List.mem_of_mem_filter listed⟩⟩
  · next named =>
      rw [List.mem_singleton] at member
      exact ⟨t.fromState, member, .inl ⟨rfl, named⟩⟩

theorem mem_skeleton {line : Line} : line ∈ skeleton schema states ↔ line = .header ∨
    ∃ signal ∈ schema.signals, line = .cluster signal.id ∨
      (∃ state ∈ signal.states, .node ⟨signal.id, state⟩ (nodeAttrs states signal state) = line) ∨
      line = .gap ∨
      (∃ t ∈ schema.transitions, t.signalId = signal.id ∧ line ∈ transitionLines signal t) ∨
      line = .clusterEnd := by
  simp only [skeleton, clusterLines, List.cons_append, List.append_assoc, List.mem_cons,
    List.mem_append, List.mem_map, List.mem_flatMap, List.mem_filter, decide_eq_true_eq,
    List.not_mem_nil, or_false, and_assoc]

/-- One cluster for each signal. -/
theorem skeleton_clusters {signalId : String} :
    signalId ∈ (skeleton schema states).flatMap Line.clusters ↔
      signalId ∈ schema.signals.map (·.id) := by
  rw [List.mem_flatMap, List.mem_map]
  constructor
  · rintro ⟨line, member, own⟩
    obtain rfl | ⟨signal, declared, rfl | ⟨_, _, rfl⟩ | rfl | ⟨t, _, _, edge⟩ | rfl⟩ :=
      mem_skeleton.mp member
    · cases own
    · exact ⟨signal, declared, (List.mem_singleton.mp own).symm⟩
    · cases own
    · cases own
    · obtain ⟨state, rfl, _⟩ := mem_transitionLines edge
      cases own
    · cases own
  · rintro ⟨signal, declared, rfl⟩
    exact ⟨.cluster signal.id, mem_skeleton.mpr (.inr ⟨signal, declared, .inl rfl⟩),
      List.mem_singleton.mpr rfl⟩

/-- The ends of the edges of a transition are declared. -/
theorem transition_declared (checked : schema.Checked) {signal : SignalDef}
    (declared : signal ∈ schema.signals) {t : TransitionDef} (member : t ∈ schema.transitions)
    (own : t.signalId = signal.id) {line : Line} (edge : line ∈ transitionLines signal t) :
    ∀ n ∈ line.nodes, n ∈ declaredNodes schema := by
  obtain ⟨sig, known, named, source, target⟩ := checked.transition t member
  obtain rfl : sig = signal := eq_of_id checked.distinct known declared (named.trans own)
  obtain ⟨state, rfl, ⟨rfl, given⟩ | ⟨_, listed⟩⟩ := mem_transitionLines edge
  · simpa [Line.nodes, mem_declaredNodes] using
      ⟨⟨sig, known, rfl, source.resolve_left given⟩, sig, known, rfl, target⟩
  · simpa [Line.nodes, mem_declaredNodes] using
      ⟨⟨sig, known, rfl, listed⟩, sig, known, rfl, target⟩

/-- One node for each state, and no edge to anything else. -/
theorem skeleton_nodes (checked : schema.Checked) {n : Node} :
    n ∈ (skeleton schema states).flatMap Line.nodes ↔ n ∈ declaredNodes schema := by
  rw [List.mem_flatMap]
  constructor
  · rintro ⟨line, member, own⟩
    obtain rfl | ⟨signal, declared, rfl | ⟨state, listed, rfl⟩ | rfl | ⟨t, known, named, edge⟩ |
      rfl⟩ := mem_skeleton.mp member
    · cases own
    · cases own
    · rw [List.mem_singleton.mp own]
      exact mem_declaredNodes.mpr ⟨signal, declared, rfl, listed⟩
    · cases own
    · exact transition_declared checked declared known named edge n own
    · cases own
  · intro member
    obtain ⟨signal, declared, named, listed⟩ := mem_declaredNodes.mp member
    refine ⟨.node ⟨signal.id, n.state⟩ (nodeAttrs states signal n.state),
      mem_skeleton.mpr (.inr ⟨signal, declared, .inr (.inl ⟨n.state, listed, rfl⟩)⟩), ?_⟩
    rw [named]
    exact List.mem_singleton.mpr rfl

theorem reactionLine_nodes {guardInfo : GuardInfo} {reaction : ReactionDef} {line : Line}
    (drawn : reactionLine schema states guardInfo reaction = some line) :
    ∃ head ∈ declaredNodes schema,
      line.nodes = [reactionFromNode schema states reaction, head] ∧ line.clusters = [] := by
  obtain ⟨head, anchor, rfl⟩ := Option.map_eq_some_iff.mp drawn
  obtain ⟨signal, found, first⟩ := Option.bind_eq_some_iff.mp anchor
  obtain ⟨state, listed, rfl⟩ := Option.map_eq_some_iff.mp first
  refine ⟨_, mem_declaredNodes.mpr ⟨signal, List.mem_of_find?_eq_some found, ?_,
    List.mem_of_head? listed⟩, rfl, rfl⟩
  simpa using List.find?_some found

/-- A reaction to a known signal is drawn. -/
theorem reactionLine_some (checked : schema.Checked) (states : HashMap String)
    (guardInfo : GuardInfo) {reaction : ReactionDef}
    (target : reaction.toSignal ∈ schema.signals.map (·.id)) :
    ∃ line, reactionLine schema states guardInfo reaction = some line := by
  obtain ⟨signal, declared, named⟩ := List.mem_map.mp target
  obtain ⟨signal', found⟩ : ∃ signal', schema.signals.find? (·.id = reaction.toSignal) =
      some signal' := Option.isSome_iff_exists.mp (List.find?_isSome.mpr
        ⟨signal, declared, by simpa using named⟩)
  obtain ⟨state, rest, states_eq⟩ := List.exists_cons_of_ne_nil
    (List.ne_nil_of_mem (checked.initial signal' (List.mem_of_find?_eq_some found)))
  refine ⟨_, Option.map_eq_some_iff.mpr ⟨⟨reaction.toSignal, state⟩, ?_, rfl⟩⟩
  rw [anchorNode, found, Option.bind_some, states_eq]
  rfl

end

/-! ## When a diagram conflates -/

/-- Different states have different nodes and different signals different clusters, and
every edge of a transition ends at the nodes of the states it is declared between and at no
others. -/
structure NeverConflated (schema : TopologySchema) (lines : List Line) : Prop where
  nodes : ∀ n ∈ lines.flatMap Line.nodes, ∀ m ∈ lines.flatMap Line.nodes, n.id = m.id → n = m
  clusters : ∀ s ∈ lines.flatMap Line.clusters, ∀ t ∈ lines.flatMap Line.clusters,
    clusterId s = clusterId t → s = t
  edges : ∀ tail head label tooltip, .edge tail head label tooltip ∈ lines →
    (∃ t ∈ schema.transitions, tail.signalId = t.signalId ∧ head = ⟨t.signalId, t.toState⟩ ∧
      (t.fromState = tail.state ∨ t.fromState = "*")) ∧
    ∀ n attrs, .node n attrs ∈ lines → (n.id = tail.id → n = tail) ∧ (n.id = head.id → n = head)

/-- No two of the states, and no two of the signals, are written alike. -/
structure Distinguishable (nodes : List Node) (signals : List String) : Prop where
  nodes : ∀ n ∈ nodes, ∀ m ∈ nodes, Alike n.name m.name → n = m
  signals : ∀ s ∈ signals, ∀ t ∈ signals, Alike s t → s = t

variable {schema : TopologySchema} {states : HashMap String}

theorem edge_declared {tail head : Node} {label tooltip : String}
    (member : .edge tail head label tooltip ∈ skeleton schema states) :
    ∃ t ∈ schema.transitions, tail.signalId = t.signalId ∧ head = ⟨t.signalId, t.toState⟩ ∧
      (t.fromState = tail.state ∨ t.fromState = "*") := by
  obtain same | ⟨signal, _, same | ⟨_, _, same⟩ | same | ⟨t, known, own, edge⟩ | same⟩ :=
    mem_skeleton.mp member
  · cases same
  · cases same
  · cases same
  · cases same
  · obtain ⟨state, same, source⟩ := mem_transitionLines edge
    cases same
    refine ⟨t, known, own.symm, by rw [own], ?_⟩
    exact source.imp And.left And.left
  · cases same

/-- A diagram that names the given states and signals, with the edges of the skeleton,
conflates nothing exactly if it can tell these apart. -/
theorem neverConflated_iff (states : HashMap String) {lines : List Line}
    {nodes : List Node} {signals : List String}
    (named : ∀ n, n ∈ lines.flatMap Line.nodes ↔ n ∈ nodes)
    (drawn : ∀ s, s ∈ lines.flatMap Line.clusters ↔ s ∈ signals)
    (edges : ∀ tail head label tooltip, .edge tail head label tooltip ∈ lines →
      .edge tail head label tooltip ∈ skeleton schema states) :
    NeverConflated schema lines ↔ Distinguishable nodes signals := by
  constructor
  · rintro ⟨apart, clusters, _⟩
    refine ⟨fun n first m second alike => ?_, fun s first t second alike => ?_⟩
    · exact apart n ((named n).mpr first) m ((named m).mpr second) (Node.id_eq_iff.mpr alike)
    · exact clusters s ((drawn s).mpr first) t ((drawn t).mpr second) (clusterId_eq_iff.mpr alike)
  · rintro ⟨apart, clusters⟩
    have nodes_apart : ∀ n ∈ lines.flatMap Line.nodes, ∀ m ∈ lines.flatMap Line.nodes,
        n.id = m.id → n = m := by
      intro n first m second same
      exact apart n ((named n).mp first) m ((named m).mp second) (Node.id_eq_iff.mp same)
    refine ⟨nodes_apart, fun s first t second same => ?_, ?_⟩
    · exact clusters s ((drawn s).mp first) t ((drawn t).mp second) (clusterId_eq_iff.mp same)
    · intro tail head label tooltip member
      refine ⟨edge_declared (edges tail head label tooltip member), fun n attrs other => ?_⟩
      have node : n ∈ lines.flatMap Line.nodes :=
        List.mem_flatMap.mpr ⟨.node n attrs, other, List.mem_singleton.mpr rfl⟩
      have ends : ∀ m ∈ [tail, head], m ∈ lines.flatMap Line.nodes := fun m own =>
        List.mem_flatMap.mpr ⟨_, member, own⟩
      exact ⟨nodes_apart n node tail (ends tail (by simp)),
        nodes_apart n node head (ends head (by simp))⟩

/-- A diagram of a valid topology keeps everything apart exactly if no two of its states,
written with their signals, and no two of its signals agree up to characters that are
neither letters nor digits. The extended diagram also names the states its reactions
watch. -/
theorem dot_conflates_iff (valid : validate schema = .ok ()) :
    (NeverConflated schema (stateLines schema ∅) ↔
      Distinguishable (declaredNodes schema) (schema.signals.map (·.id))) ∧
    ∀ states, (NeverConflated schema (stateLines schema states) ↔
      Distinguishable (declaredNodes schema) (schema.signals.map (·.id))) ∧
    ∀ guardInfo, NeverConflated schema (extendedLines schema states guardInfo) ↔
      Distinguishable (declaredNodes schema ++ watchedNodes schema states)
        (schema.signals.map (·.id)) := by
  obtain ⟨checked, ends⟩ := validate_iff.mp valid
  have plain : ∀ states, NeverConflated schema (stateLines schema states) ↔
      Distinguishable (declaredNodes schema) (schema.signals.map (·.id)) := by
    intro states
    refine neverConflated_iff states (fun n => ?_) (fun s => ?_) fun _ _ _ _ member => ?_
    · rw [stateLines, List.flatMap_append, List.mem_append, skeleton_nodes checked]
      exact or_iff_left (List.not_mem_nil)
    · rw [stateLines, List.flatMap_append, List.mem_append, skeleton_clusters]
      exact or_iff_left (List.not_mem_nil)
    · rcases List.mem_append.mp member with inside | last
      · exact inside
      · cases List.mem_singleton.mp last
  refine ⟨plain ∅, fun states => ⟨plain states, fun guardInfo => ?_⟩⟩
  have reactions : ∀ line ∈ schema.reactions.filterMap (reactionLine schema states guardInfo),
      ∃ r ∈ schema.reactions, ∃ head ∈ declaredNodes schema,
        line.nodes = [reactionFromNode schema states r, head] ∧ line.clusters = [] := by
    intro line member
    obtain ⟨r, known, drawn⟩ := List.mem_filterMap.mp member
    exact ⟨r, known, reactionLine_nodes drawn⟩
  refine neverConflated_iff states (fun n => ?_) (fun s => ?_) fun _ _ _ _ member => ?_
  · rw [extendedLines, List.flatMap_append, List.mem_append, skeleton_nodes checked,
      List.mem_append, List.flatMap_append, List.mem_append]
    constructor
    · rintro (declared | drawn | last)
      · exact .inl declared
      · obtain ⟨line, member, own⟩ := List.mem_flatMap.mp drawn
        obtain ⟨r, known, head, declared, nodes, _⟩ := reactions line member
        rw [nodes] at own
        rcases List.mem_cons.mp own with rfl | own
        · exact .inr (List.mem_map_of_mem known)
        · exact .inl (List.mem_singleton.mp own ▸ declared)
      · cases last
    · rintro (declared | watched)
      · exact .inl declared
      · obtain ⟨r, known, rfl⟩ := List.mem_map.mp watched
        obtain ⟨line, drawn⟩ := reactionLine_some checked states guardInfo (ends r known).2
        obtain ⟨head, _, nodes, _⟩ := reactionLine_nodes drawn
        refine .inr
          (.inl (List.mem_flatMap.mpr ⟨line, List.mem_filterMap.mpr ⟨r, known, drawn⟩, ?_⟩))
        rw [nodes]
        exact List.mem_cons_self
  · rw [extendedLines, List.flatMap_append, List.mem_append, skeleton_clusters,
      List.flatMap_append, List.mem_append]
    refine or_iff_left ?_
    rintro (drawn | last)
    · obtain ⟨line, member, own⟩ := List.mem_flatMap.mp drawn
      obtain ⟨_, _, _, _, _, none_⟩ := reactions line member
      rw [none_] at own
      cases own
    · cases last
  · rcases List.mem_append.mp member with inside | outside
    · exact inside
    · rcases List.mem_append.mp outside with drawn | last
      · obtain ⟨r, _, drawn⟩ := List.mem_filterMap.mp drawn
        obtain ⟨head, _, same⟩ := Option.map_eq_some_iff.mp drawn
        cases same
      · cases List.mem_singleton.mp last

/-- Underscores alone: `b_c` of `a`, and `c` of `a_b`. -/
def splitSchema : TopologySchema where
  version := "0.1"
  signals := [⟨"a", "b_c", ["b_c"]⟩, ⟨"a_b", "c", ["c"]⟩]
  transitions := []

theorem splitSchema_valid : validate splitSchema = .ok () := by decide

theorem splitSchema_conflates : validate splitSchema = .ok () ∧ splitSchema.Flat ∧
    (⟨"a", "b_c"⟩ : Node).id = (⟨"a_b", "c"⟩ : Node).id ∧
    ¬ NeverConflated splitSchema (stateLines splitSchema ∅) := by
  have same : (⟨"a", "b_c"⟩ : Node).id = (⟨"a_b", "c"⟩ : Node).id := by decide
  refine ⟨splitSchema_valid, rfl, same, fun never => ?_⟩
  have confused := never.nodes ⟨"a", "b_c"⟩ (by decide) ⟨"a_b", "c"⟩ (by decide) same
  exact absurd confused (by decide)

theorem splitSchema_conflates_iff : NeverConflated splitSchema (stateLines splitSchema ∅) ↔
    Distinguishable (declaredNodes splitSchema) ["a", "a_b"] :=
  (dot_conflates_iff splitSchema_valid).1

end SignalTopology.Export
