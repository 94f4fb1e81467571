import SignalTopology.Ddl.Layout
import SignalTopology.Json

/-!
# Signals, forks and joins as documented

The syntax reference of the language for `signal`, `fork` and `join` blocks: what
their clauses say, the pieces they are written with, and the declarations a reader
of the reference expects from them, each clause with its own guard.
-/

namespace SignalTopology.Ddl

/-! ## Clauses -/

/-- The phases of a transition that a lifecycle hook can name. -/
inductive Phase where
  | exit
  | transition
  | enter
  deriving DecidableEq

def Phase.keyword : Phase → String
  | exit => "on_exit"
  | transition => "on_transition"
  | enter => "on_enter"

/-- `on_enter: first, more, ...`, or the same for another phase. -/
structure Hook where
  phase : Phase
  first : String
  more : List String

def Hook.ids (hook : Hook) : List String := hook.first :: hook.more

/-- The actions of a transition with those of one more phase. -/
def Hook.bind (actions : DdlActionBinding) (hook : Hook) : DdlActionBinding :=
  match hook.phase with
  | .exit => { actions with onExit := hook.ids }
  | .transition => { actions with onTransition := hook.ids }
  | .enter => { actions with onEnter := hook.ids }

/-- `on event from source -> target when guard { ... }`. The wildcard has no
source. -/
structure OnClause where
  event : String
  source : Option String
  target : String
  guard : Option (List Char)
  block : Option (List Hook)

/-- What may stand between the guard and the `on_fail` of a reaction. -/
inductive WhenBlock where
  | none
  | empty
  | payload (text : List Char)

/-- `when fromSignal enters fromState -> toSignal event when guard with { ... }
on_fail: hook`. -/
structure WhenClause where
  fromSignal : String
  fromState : String
  toSignal : String
  event : String
  guard : Option (List Char)
  block : WhenBlock
  onFail : Option String

/-- A top-level block with clauses. The list of states may end with a comma. -/
inductive Block where
  | signal (id : String) (states : List String) (trailing : Bool) (initial : String)
      (clauses : List OnClause)
  | fork (clauses : List WhenClause)
  | join (group : String) (clauses : List WhenClause)

/-! ## What the clauses declare -/

def OnClause.actions (c : OnClause) : DdlActionBinding := (c.block.getD []).foldl Hook.bind {}

def OnClause.decl (c : OnClause) : TransDecl where
  event := c.event
  fromState := c.source.getD "*"
  toState := c.target
  guard := c.guard.map String.ofList
  actions := c.actions

def WhenBlock.text : WhenBlock → Option (List Char)
  | payload text => some text
  | _ => .none

/-- The reaction of a clause, as a member of a fork or a join. -/
def WhenClause.decl (joinGroup : Option String) (requires : List String) (c : WhenClause) :
    ReactionDecl where
  fromSignal := c.fromSignal
  fromState := c.fromState
  toSignal := c.toSignal
  event := c.event
  guard := c.guard.map String.ofList
  guardRef := none
  payload := c.block.text.map String.ofList
  joinGroup := joinGroup
  requires := requires
  onFail := c.onFail

/-- The reaction before its guard is resolved. -/
def ReactionDecl.raw (r : ReactionDecl) : RawReaction where
  fromSignal := r.fromSignal
  fromState := r.fromState
  toSignal := r.toSignal
  event := r.event
  guard := r.guard.map .lit
  payload := r.payload
  joinGroup := r.joinGroup
  requires := r.requires
  onFail := r.onFail

def signalsOf (blocks : List Block) : List SignalDecl :=
  blocks.filterMap fun
    | .signal id states _ initial clauses =>
        some { id, states, initial, transitions := clauses.map OnClause.decl }
    | _ => none

/-- The reactions of the blocks, where `n` is the number of forks before them. -/
def reactionsOf : Nat → List Block → List ReactionDecl
  | _, [] => []
  | n, .signal .. :: blocks => reactionsOf n blocks
  | n, .fork clauses :: blocks =>
      clauses.map (WhenClause.decl (some (forkName n)) []) ++ reactionsOf (n + 1) blocks
  | n, .join group clauses :: blocks =>
      clauses.map (WhenClause.decl none [group]) ++ reactionsOf n blocks

def forkCount (blocks : List Block) : Nat :=
  blocks.countP fun
    | .fork _ => true
    | _ => false

/-! ## How the clauses are written -/

def Piece.lBrace : Piece := .symbol '{' .lBrace

def Piece.rBrace : Piece := .symbol '}' .rBrace

def Piece.colon : Piece := .symbol ':' .colon

def Piece.comma : Piece := .symbol ',' .comma

variable [RustStd]

/-- A text of several tokens: a guard or a payload. -/
def Piece.span (text : List Char) : Piece := ⟨text, (kindsOf text).getD []⟩

/-- Names separated by commas, after the first. -/
def namePieces (names : List String) : List Piece :=
  names.flatMap fun s => [.comma, .word s]

def Hook.pieces (hook : Hook) : List Piece :=
  .word hook.phase.keyword :: .colon :: .word hook.first :: namePieces hook.more

def guardPieces : Option (List Char) → List Piece
  | some guard => [.word "when", .span guard]
  | none => []

def sourcePiece : Option String → Piece
  | some s => .word s
  | none => .symbol '*' .mul

def hookPieces : Option (List Hook) → List Piece
  | some hooks => .lBrace :: (hooks.flatMap Hook.pieces ++ [.rBrace])
  | none => []

def OnClause.pieces (c : OnClause) : List Piece :=
  [.word "on", .word c.event, .word "from", sourcePiece c.source, .arrow, .word c.target] ++
    (guardPieces c.guard ++ hookPieces c.block)

def WhenBlock.pieces : WhenBlock → List Piece
  | none => []
  | empty => [.lBrace, .rBrace]
  | payload text => [.word "with", .span text]

def onFailPieces : Option String → List Piece
  | some hook => [.word "on_fail", .colon, .word hook]
  | none => []

def WhenClause.pieces (c : WhenClause) : List Piece :=
  [.word "when", .word c.fromSignal, .word "enters", .word c.fromState, .arrow,
    .word c.toSignal, .word c.event] ++
    (guardPieces c.guard ++ (c.block.pieces ++ onFailPieces c.onFail))

def statePieces : List String → Bool → List Piece
  | [], _ => []
  | s :: states, trailing =>
      .word s :: (namePieces states ++ if trailing then [.comma] else [])

def Block.pieces : Block → List Piece
  | signal id states trailing initial clauses =>
      [.word "signal", .word id, .lBrace, .word "states", .colon, .symbol '[' .lBracket] ++
        (statePieces states trailing ++ ([.symbol ']' .rBracket, .word "initial", .colon,
          .word initial] ++ (clauses.flatMap OnClause.pieces ++ [.rBrace])))
  | fork clauses =>
      .word "fork" :: .lBrace :: (clauses.flatMap WhenClause.pieces ++ [.rBrace])
  | join group clauses =>
      .word "join" :: .word group :: .lBrace ::
        (clauses.flatMap WhenClause.pieces ++ [.rBrace])

/-! ## What the reference demands -/

/-- A guard that the guard language accepts, without the blanks around it. -/
structure GuardText (text : List Char) : Prop where
  accepted : Guard.Accepts (String.ofList text)
  solid : Solid text

/-- The braces of a text close `depth` open ones, the last of them at its end. -/
def closes (depth : Nat) : List TokenKind → Bool
  | [] => false
  | .lBrace :: kinds => closes (depth + 1) kinds
  | .rBrace :: kinds =>
      if depth = 1 then kinds.isEmpty else 1 < depth && closes (depth - 1) kinds
  | .eof :: _ => false
  | _ :: kinds => closes depth kinds

/-- A payload block: its braces balance, and it holds a JSON value. -/
structure PayloadText [SerdeJson] (text : List Char) : Prop where
  tame : Tame text
  solid : Solid text
  balanced : ∃ kinds, kindsOf text = some (.lBrace :: kinds) ∧ closes 1 kinds = true
  value : ∃ value, SerdeJson.valueFromStr (String.ofList text) = .ok value

structure OnClause.Formed (states : List String) (c : OnClause) : Prop where
  event : IsName c.event
  source : ∀ s, c.source = some s → IsName s ∧ s ∈ states
  target : IsName c.target
  declared : c.target ∈ states
  guard : ∀ text, c.guard = some text → GuardText text
  hooks : ∀ hooks, c.block = some hooks →
    (∀ hook ∈ hooks, ∀ id ∈ hook.ids, IsName id) ∧ (hooks.map Hook.phase).Nodup

structure WhenClause.Formed [SerdeJson] (c : WhenClause) : Prop where
  fromSignal : IsName c.fromSignal
  fromState : IsName c.fromState
  toSignal : IsName c.toSignal
  event : IsName c.event
  guard : ∀ text, c.guard = some text → GuardText text
  payload : ∀ text, c.block = .payload text → PayloadText text
  onFail : ∀ hook, c.onFail = some hook → IsName hook

def Block.Formed [SerdeJson] : Block → Prop
  | signal id states _ initial clauses =>
      IsName id ∧ (∀ s ∈ states, IsName s) ∧ IsName initial ∧ initial ∈ states ∧
        ∀ c ∈ clauses, c.Formed states
  | fork clauses => ∀ c ∈ clauses, c.Formed
  | join group clauses => IsName group ∧ ∀ c ∈ clauses, c.Formed

/-- The blocks are written as the reference says, no two signals share a name, and
every join names a fork. -/
structure WellFormed [SerdeJson] (blocks : List Block) : Prop where
  formed : ∀ block ∈ blocks, block.Formed
  distinct : ((signalsOf blocks).map SignalDecl.id).Nodup
  joins : ∀ group clauses, .join group clauses ∈ blocks →
    ∃ n < forkCount blocks, group = forkName n

/-! ## Guards that stay whole -/

/-- The DDL lexer reads the guard, and no token in it ends a guard. -/
def Unbroken (guard : List Char) : Prop :=
  ∃ kinds, kindsOf guard = some kinds ∧ ∀ kind ∈ kinds, kind.endsGuard = false

/-- The guard is a name alone, which a reaction takes for the name of a guard
declaration. -/
def Reference (guard : List Char) : Prop :=
  ∃ name, kindsOf guard = some [.identifier name]

/-- A guarded clause has its block or is the last one. -/
def OnClause.Intact (c : OnClause) (last : Bool) : Prop :=
  ∀ guard, c.guard = some guard → Unbroken guard ∧ (c.block.isSome = true ∨ last = true)

/-- The tokens after the guard end it. -/
def WhenClause.Intact (c : WhenClause) (last : Bool) : Prop :=
  ∀ guard, c.guard = some guard → Unbroken guard ∧ ¬ Reference guard ∧
    (c.block ≠ .none ∨ c.onFail.isSome = true ∨ last = true)

/-- A property of each clause of a block and of whether it is the last one. -/
def Clauses {γ : Type} (property : γ → Bool → Prop) : List γ → Prop
  | [] => True
  | c :: clauses => property c clauses.isEmpty ∧ Clauses property clauses

def Block.Intact : Block → Prop
  | signal _ _ _ _ clauses => Clauses OnClause.Intact clauses
  | fork clauses => Clauses WhenClause.Intact clauses
  | join _ clauses => Clauses WhenClause.Intact clauses

end SignalTopology.Ddl
