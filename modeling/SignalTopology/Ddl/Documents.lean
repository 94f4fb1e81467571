import SignalTopology.Ddl.Blanks
import SignalTopology.Ddl.Clauses

/-!
# Whole documents

Every kind of block the language has, as it is written, and the document that a
reader of the syntax reference expects: the declarations in source order, the
members of a fork tagged with its number and those of a join with its group, and
every guard that is a lone name replaced by the guard declared under that name.
-/

namespace SignalTopology.Ddl

/-! ## Blocks -/

/-- `{ a -> b, ... }`, where the list may end with a comma. -/
structure Arrows where
  pairs : List (String × String)
  trailing : Bool

/-- A signal with its clauses. The list of states may end with a comma. -/
structure SignalBlock where
  id : String
  states : List String
  trailing : Bool
  initial : String
  clauses : List OnClause

/-- What may stand in a component. -/
inductive Member where
  | port (port : PortDef)
  | signal (signal : SignalBlock)
  | reaction (clause : WhenClause)

/-- A top-level block. The expression of a guard stands between blanks. -/
inductive Item where
  | signal (signal : SignalBlock)
  | reaction (clause : WhenClause)
  | guard (id : String) (front expr back : List Char)
  | fork (clauses : List WhenClause)
  | join (group : String) (clauses : List WhenClause)
  | component (id : String) (params : Option (List String × Bool)) (members : List Member)
  | instantiate (component name : String) (bindings : Arrows) (connections : Option Arrows)

/-- The clauses that may have a guard of their own or refer to one. -/
def Member.clauses : Member → List WhenClause
  | reaction clause => [clause]
  | port _ | signal _ => []

def Item.clauses : Item → List WhenClause
  | reaction clause => [clause]
  | fork clauses | join _ clauses => clauses
  | component _ _ members => members.flatMap Member.clauses
  | signal _ | guard .. | instantiate .. => []

/-! ## What the blocks declare -/

def SignalBlock.decl (s : SignalBlock) : SignalDecl where
  id := s.id
  states := s.states
  initial := s.initial
  transitions := s.clauses.map OnClause.decl

def Arrows.map (arrows : Arrows) : HashMap String :=
  arrows.pairs.foldl (fun map pair => map.insert pair.1 pair.2) ∅

def Arrows.connections (arrows : Arrows) : List ConnectionDef :=
  arrows.pairs.map fun pair => { port := pair.1, targetSignal := pair.2 }

def Member.ports : Member → List PortDef
  | port p => [p]
  | signal _ | reaction _ => []

def Member.signals : Member → List SignalDecl
  | signal s => [s.decl]
  | port _ | reaction _ => []

def Item.signals : Item → List SignalDecl
  | signal s => [s.decl]
  | _ => []

def Item.guards : Item → List GuardDecl
  | guard id _ expr _ => [{ id, expr := String.ofList expr }]
  | _ => []

def Item.instantiates : Item → List InstantiateDecl
  | instantiate comp _ bindings connections => [{
      component := comp, bindings := bindings.map
      connections := (connections.map Arrows.connections).getD [] }]
  | _ => []

/-- One fork takes one number. -/
def Item.forks : Item → Nat
  | fork _ => 1
  | _ => 0

def itemForks : List Item → Nat
  | [] => 0
  | item :: items => item.forks + itemForks items

section

variable [RustStd]

/-- The guard is a name alone. -/
def isReference (guard : List Char) : Bool :=
  match kindsOf guard with
  | some [.identifier _] => true
  | _ => false

/-- The reaction of a clause, where `guards` are the guard declarations. -/
def WhenClause.resolved (guards : List GuardDecl) (joinGroup : Option String)
    (requires : List String) (c : WhenClause) : ReactionDecl :=
  { c.decl joinGroup requires with
    guard := c.guard.bind fun guard =>
      if isReference guard then (guards.find? (·.id = String.ofList guard)).map (·.expr)
      else some (String.ofList guard)
    guardRef := c.guard.bind fun guard =>
      if isReference guard then some (String.ofList guard) else none }

/-- The reactions of a block, where `n` is the number of forks before it. -/
def Item.reactions (guards : List GuardDecl) (n : Nat) : Item → List ReactionDecl
  | reaction c => [c.resolved guards none []]
  | fork clauses => clauses.map (WhenClause.resolved guards (some (forkName n)) [])
  | join group clauses => clauses.map (WhenClause.resolved guards none [group])
  | _ => []

def itemReactions (guards : List GuardDecl) : Nat → List Item → List ReactionDecl
  | _, [] => []
  | n, item :: items => item.reactions guards n ++ itemReactions guards (n + item.forks) items

def memberDecl (guards : List GuardDecl) (id : String) (params : Option (List String × Bool))
    (members : List Member) : ComponentDecl where
  id := id
  params := (params.map Prod.fst).getD []
  ports := members.flatMap Member.ports
  signals := members.flatMap Member.signals
  reactions := (members.flatMap Member.clauses).map (WhenClause.resolved guards none [])

def Item.components (guards : List GuardDecl) : Item → List ComponentDecl
  | component id params members => [memberDecl guards id params members]
  | _ => []

/-- The document of the blocks. -/
def documentOf (items : List Item) : DdlDoc where
  signals := items.flatMap Item.signals
  reactions := itemReactions (items.flatMap Item.guards) 0 items
  guards := items.flatMap Item.guards
  components := items.flatMap (Item.components (items.flatMap Item.guards))
  instantiates := items.flatMap Item.instantiates

/-! ## How the blocks are written -/

/-- `signal.state` without a blank inside. -/
def Piece.access (signal state : String) : Piece :=
  ⟨signal.toList ++ '.' :: state.toList,
    [wordKind signal.toList, .dot, wordKind state.toList]⟩

def directionWord : PortDirection → String
  | .in => "in"
  | .out => "out"
  | .inOut => "inout"

def portPieces (port : PortDef) : List Piece :=
  [.word "port", .word (directionWord port.direction), .access port.signal port.state] ++
    match port.alias with
    | some name => [.word "as", .word name]
    | none => []

def SignalBlock.pieces (s : SignalBlock) : List Piece :=
  (Block.signal s.id s.states s.trailing s.initial s.clauses).pieces

def reactionPieces (c : WhenClause) : List Piece :=
  .word "reaction" :: .lBrace :: (c.pieces ++ [.rBrace])

def Member.pieces : Member → List Piece
  | port p => portPieces p
  | signal s => s.pieces
  | reaction c => reactionPieces c

def paramPieces : Option (List String × Bool) → List Piece
  | some (params, trailing) =>
      [.word "params", .colon, .symbol '[' .lBracket] ++
        (statePieces params trailing ++ [.symbol ']' .rBracket])
  | none => []

def arrowPieces (pair : String × String) : List Piece := [.word pair.1, .arrow, .word pair.2]

def Arrows.pieces (arrows : Arrows) : List Piece :=
  .lBrace :: ((match arrows.pairs with
    | [] => []
    | pair :: pairs =>
        arrowPieces pair ++ (pairs.flatMap (fun pair => .comma :: arrowPieces pair) ++
        if arrows.trailing then [.comma] else [])) ++ [.rBrace])

/-- The expression of a guard between its braces. -/
def guardBody (front expr back : List Char) : List Char :=
  '{' :: (front ++ (expr ++ (back ++ ['}'])))

def Item.pieces : Item → List Piece
  | signal s => s.pieces
  | reaction c => reactionPieces c
  | guard id front expr back =>
      [.word "guard", .word id, .span (guardBody front expr back)]
  | fork clauses => (Block.fork clauses).pieces
  | join group clauses => (Block.join group clauses).pieces
  | component id params members =>
      .word "component" :: .word id :: .lBrace ::
        (paramPieces params ++ (members.flatMap Member.pieces ++ [.rBrace]))
  | instantiate comp name bindings connections =>
      [.word "instantiate", .word comp, .word "as", .word name, .word "with"] ++
        (bindings.pieces ++
          match connections with
          | some arrows => .word "connect" :: arrows.pieces
          | none => [])

/-! ## What is asked of each block -/

/-- Tokens, none of which can end a guard. -/
def GuardSpan (text : List Char) : Prop :=
  ∃ kinds, Spans text kinds ∧ ∀ kind ∈ kinds, kind.endsGuard = false

/-- A block of tokens whose braces balance. -/
def BraceSpan (text : List Char) : Prop :=
  ∃ kinds, Spans text (.lBrace :: kinds) ∧ closes 1 kinds = true

/-- The names of a clause fit its signal, and a guard has its block. -/
structure OnClause.Printed (states : List String) (c : OnClause) : Prop where
  named : c.Named states
  guard : ∀ text, c.guard = some text → GuardSpan text ∧ c.block.isSome = true

structure WhenClause.Printed (c : WhenClause) : Prop where
  named : c.Named
  guard : ∀ text, c.guard = some text → GuardSpan text ∧ c.block ≠ .none
  payload : ∀ text, c.block = .payload text → BraceSpan text

structure SignalBlock.Printed (s : SignalBlock) : Prop where
  id : IsName s.id
  states : ∀ state ∈ s.states, IsName state
  initial : IsName s.initial
  declared : s.initial ∈ s.states
  clauses : ∀ c ∈ s.clauses, c.Printed s.states

structure PortPrinted (port : PortDef) : Prop where
  signal : IsName port.signal
  state : IsName port.state
  «alias» : ∀ name, port.alias = some name → IsName name

def Arrows.Printed (arrows : Arrows) : Prop :=
  ∀ pair ∈ arrows.pairs, IsName pair.1 ∧ IsName pair.2

def Member.Printed : Member → Prop
  | port p => PortPrinted p
  | signal s => s.Printed
  | reaction c => c.Printed

def Item.Printed : Item → Prop
  | signal s => s.Printed
  | reaction c => c.Printed
  | guard id front expr back => IsName id ∧ GuardSpan expr ∧ Gap front ∧ Gap back ∧
      Guard.AllBlank front ∧ Guard.AllBlank back
  | fork clauses => ∀ c ∈ clauses, c.Printed
  | join group clauses => IsName group ∧ ∀ c ∈ clauses, c.Printed
  | component id params members => IsName id ∧
      (∀ list trailing, params = some (list, trailing) → ∀ s ∈ list, IsName s) ∧
      ∀ member ∈ members, member.Printed
  | instantiate comp name bindings connections => IsName comp ∧ IsName name ∧
      bindings.Printed ∧ ∀ arrows, connections = some arrows → arrows.Printed

/-! ## What is asked of the document -/

/-- No name is declared twice, and what the blocks refer to is declared. -/
structure Consistent (items : List Item) : Prop where
  signals : ((items.flatMap Item.signals).map SignalDecl.id).Nodup
  guards : ((items.flatMap Item.guards).map GuardDecl.id).Nodup
  components : ((items.flatMap (Item.components [])).map ComponentDecl.id).Nodup
  inside : ∀ id params members, .component id params members ∈ items →
    ((members.flatMap Member.signals).map SignalDecl.id).Nodup
  joins : ∀ group clauses, .join group clauses ∈ items →
    ∃ n < itemForks items, group = forkName n
  references : ∀ item ∈ items, ∀ c ∈ item.clauses, ∀ text, c.guard = some text →
    isReference text = true → ∃ guard ∈ items.flatMap Item.guards, guard.id = String.ofList text

/-- The guard of the clause does not start like a clause. -/
def WhenClause.Plain (c : WhenClause) : Prop :=
  ∀ text, c.guard = some text →
    ∀ name kinds, kindsOf text ≠ some (.identifier name :: .enters :: kinds)

end

end SignalTopology.Ddl
