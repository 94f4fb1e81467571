import Mathlib.Data.Finset.Insert
import SignalTopology.Ddl.Lexer
import SignalTopology.Library.TokenParser
import SignalTopology.Schema

/-!
# DDL parser

The recursive descent over the token stream, with its error texts. A `while` of
the source is `many` where it collects items, else `iterate` on one repetition of
its body. Guards and payloads are
cut out of the source by byte positions; a cut that does not fall between
characters panics.
-/

namespace SignalTopology.Ddl

open TokenParser

/-! ## Syntax trees -/

/-- The lifecycle actions bound to a transition. -/
structure DdlActionBinding where
  onExit : List String := []
  onTransition : List String := []
  onEnter : List String := []
  deriving DecidableEq

/-- One `on <event> from <src> -> <tgt>` clause. -/
structure TransDecl where
  event : String
  fromState : String
  toState : String
  guard : Option String
  actions : DdlActionBinding
  deriving DecidableEq

structure SignalDecl where
  id : String
  states : List String
  initial : String
  transitions : List TransDecl
  deriving DecidableEq

/-- A reaction whose guard is resolved. -/
structure ReactionDecl where
  fromSignal : String
  fromState : String
  toSignal : String
  event : String
  guard : Option String
  guardRef : Option String
  payload : Option String
  joinGroup : Option String
  requires : List String
  onFail : Option String
  deriving DecidableEq

structure GuardDecl where
  id : String
  expr : String
  deriving DecidableEq

structure ComponentDecl where
  id : String
  params : List String
  ports : List PortDef
  signals : List SignalDecl
  reactions : List ReactionDecl

structure InstantiateDecl where
  component : String
  bindings : HashMap String
  connections : List ConnectionDef

structure DdlDoc where
  signals : List SignalDecl
  reactions : List ReactionDecl
  guards : List GuardDecl
  components : List ComponentDecl
  instantiates : List InstantiateDecl

/-- A reaction guard as written. -/
inductive RawGuard where
  | lit (text : String)
  | ref (id : String)
  deriving DecidableEq

structure RawReaction where
  fromSignal : String
  fromState : String
  toSignal : String
  event : String
  guard : Option RawGuard
  payload : Option String
  joinGroup : Option String
  requires : List String
  onFail : Option String
  deriving DecidableEq

structure ComponentDeclRaw where
  id : String
  params : List String
  ports : List PortDef
  signals : List SignalDecl
  rawReactions : List RawReaction

/-! ## Cutting the source -/

/-- The text from byte `n` on, if a character starts there. -/
def dropBytes : List Char → Nat → Option (List Char)
  | cs, 0 => some cs
  | [], _ + 1 => none
  | c :: cs, n + 1 =>
      if c.utf8Size ≤ n + 1 then dropBytes cs (n + 1 - c.utf8Size) else none

/-- The first `n` bytes of a text, if a character ends there. -/
def takeBytes : List Char → Nat → Option (List Char)
  | _, 0 => some []
  | [], _ + 1 => none
  | c :: cs, n + 1 =>
      if c.utf8Size ≤ n + 1 then (takeBytes cs (n + 1 - c.utf8Size)).map (c :: ·) else none

/-- `&src[start..stop]`. -/
def slice (src : List Char) (start stop : Nat) : Option (List Char) :=
  if start ≤ stop then (dropBytes src start).bind (takeBytes · (stop - start)) else none

theorem dropBytes_append (before after : List Char) :
    dropBytes (before ++ after) (byteLen before) = some after := by
  induction before with
  | nil => cases after <;> rfl
  | cons c cs ih =>
      obtain ⟨n, size⟩ := Nat.exists_eq_succ_of_ne_zero (Nat.ne_of_gt c.utf8Size_pos)
      have length : byteLen (c :: cs) = (n + byteLen cs) + 1 := by
        rw [byteLen_cons, size]
        omega
      have left : n + byteLen cs + 1 - c.utf8Size = byteLen cs := by omega
      rw [List.cons_append, length, dropBytes, if_pos (by omega), left, ih]

theorem takeBytes_append (text after : List Char) :
    takeBytes (text ++ after) (byteLen text) = some text := by
  induction text with
  | nil => cases after <;> rfl
  | cons c cs ih =>
      obtain ⟨n, size⟩ := Nat.exists_eq_succ_of_ne_zero (Nat.ne_of_gt c.utf8Size_pos)
      have length : byteLen (c :: cs) = (n + byteLen cs) + 1 := by
        rw [byteLen_cons, size]
        omega
      have left : n + byteLen cs + 1 - c.utf8Size = byteLen cs := by omega
      rw [List.cons_append, length, takeBytes, if_pos (by omega), left, ih]
      rfl

/-- A span that falls between characters is cut out exactly. -/
theorem slice_append (before text after : List Char) :
    slice (before ++ (text ++ after)) (byteLen before) (byteLen before + byteLen text) =
      some text := by
  rw [slice, if_pos (Nat.le_add_right _ _), dropBytes_append, Nat.add_sub_cancel_left]
  exact takeBytes_append text after

/-- `str::trim`. -/
def trim (cs : List Char) : List Char :=
  ((cs.dropWhile isWhitespace).reverse.dropWhile isWhitespace).reverse

/-- The text between `{` and `\x7d`, or the whole text without them, trimmed. -/
def stripBraces (raw : List Char) : List Char :=
  match raw with
  | '{' :: body => if body.getLast? = some '}' then trim body.dropLast else trim raw
  | _ => trim raw

/-! ## Parsing -/

abbrev Parse (α : Type) := TokenParser.Parser Token String α

/-- A message with the place of a token. -/
def Token.error (tok : Token) (message : String) : String :=
  "line " ++ toString tok.line ++ " col " ++ toString tok.col ++ ": " ++ message

/-- The kinds at which a guard ends. -/
def TokenKind.endsGuard : TokenKind → Bool
  | lBrace | rBrace | eof | «with» | onFail => true
  | _ => false

variable [RustStd]

def expect (kind : TokenKind) : Parse Token := do
  let tok ← peek
  if tok.kind = kind then advance
  else fail (tok.error ("expected " ++ kind.debug ++ ", found " ++ tok.kind.debug))

def expectAnyIdent : Parse (String × Token) := do
  let tok ← peek
  match tok.kind with
  | .identifier s => do
      let tok ← advance
      return (s, tok)
  | _ => fail (tok.error ("expected identifier, found " ++ tok.kind.debug))

/-- One more item of a comma-separated list, or its end. -/
def commaItem {α : Type} (closing : TokenKind) (item : Parse α) (items : List α) :
    Parse (List α ⊕ List α) := do
  let tok ← peek
  if tok.kind = .comma then do
    let _ ← advance
    let tok ← peek
    if tok.kind = closing then pure (.inr items)
    else do
      let next ← item
      pure (.inl (items ++ [next]))
  else pure (.inr items)

/-- A comma-separated list between brackets. A trailing comma is allowed. -/
def commaList {α : Type} (opening closing : TokenKind) (item : Parse α) : Parse (List α) := do
  let _ ← expect opening
  let tok ← peek
  let items ←
    if tok.kind = closing then pure []
    else do
      let first ← item
      iterate (commaItem closing item) [first]
  let _ ← expect closing
  return items

def parseStateList : Parse (List String) :=
  commaList .lBracket .rBracket (do return (← expectAnyIdent).1)

/-- The tokens of a guard after its `when`, and the text they span. -/
def captureGuard (src : List Char) : Parse (List Token × List Char) := do
  let _ ← expect .when
  let first ← peek
  ensure (!first.kind.endsGuard) (first.error "'when' requires a guard expression")
  let tokens ← many (fun tok => !tok.kind.endsGuard) advance
  let last := tokens.getLastD first
  match slice src first.start (last.start + last.len) with
  | some text => return (tokens, trim text)
  | none => panic

def parseGuard (src : List Char) : Parse String := do
  let (_, text) ← captureGuard src
  return String.ofList text

/-- A single identifier is a reference to a top-level guard. -/
def parseGuardSpec (src : List Char) : Parse RawGuard := do
  let (tokens, text) ← captureGuard src
  match tokens.map Token.kind with
  | [.identifier _] => return .ref (String.ofList text)
  | _ => return .lit (String.ofList text)

/-- The action ids of one lifecycle hook. -/
def parseActionIds : Parse (List String) := do
  let (first, _) ← expectAnyIdent
  let actions ← many (fun tok => tok.kind = .comma) (do
    let _ ← advance
    return (← expectAnyIdent).1)
  return first :: actions

/-- The hooks read so far, each with a flag that it was seen. -/
structure HookState where
  actions : DdlActionBinding := {}
  seenExit : Bool := false
  seenTransition : Bool := false
  seenEnter : Bool := false

/-- One more hook, or the end of the block. -/
def parseHook (hooks : HookState) : Parse (HookState ⊕ DdlActionBinding) := do
  let hook ← peek
  if hook.kind = .onExit ∨ hook.kind = .onTransition ∨ hook.kind = .onEnter then do
    let _ ← advance
    let _ ← expect .colon
    let ids ← parseActionIds
    match hook.kind with
    | .onExit => do
        ensure (!hooks.seenExit) (hook.error "duplicate 'on_exit' hook")
        pure (.inl { hooks with seenExit := true, actions.onExit := ids })
    | .onTransition => do
        ensure (!hooks.seenTransition) (hook.error "duplicate 'on_transition' hook")
        pure (.inl { hooks with seenTransition := true, actions.onTransition := ids })
    | .onEnter => do
        ensure (!hooks.seenEnter) (hook.error "duplicate 'on_enter' hook")
        pure (.inl { hooks with seenEnter := true, actions.onEnter := ids })
    | _ => panic
  else pure (.inr hooks.actions)

def parseLifecycleActions : Parse DdlActionBinding := iterate parseHook {}

/-- The source state of a transition, or the wildcard. -/
def parseFromState (signalId : String) (states : List String) : Parse String := do
  let tok ← peek
  if tok.kind = .mul then do
    let _ ← advance
    return "*"
  else do
    let (s, tok) ← expectAnyIdent
    ensure (s ∈ states) (tok.error
      ("'from' state '" ++ s ++ "' is not in the states list for '" ++ signalId ++ "'"))
    return s

/-- The optional action block of a transition. -/
def parseActionBlock : Parse DdlActionBinding := do
  let tok ← peek
  if tok.kind = .lBrace then do
    let _ ← advance
    let actions ← parseLifecycleActions
    let _ ← expect .rBrace
    return actions
  else return {}

/-- The optional guard of a transition. -/
def parseTransitionGuard (src : List Char) : Parse (Option String) := do
  let tok ← peek
  if tok.kind = .when then some <$> parseGuard src else pure none

def parseTransition (src : List Char) (signalId : String) (states : List String) :
    Parse TransDecl := do
  let _ ← expect .on
  let (event, _) ← expectAnyIdent
  let _ ← expect .from
  let fromState ← parseFromState signalId states
  let _ ← expect .arrow
  let (toState, toTok) ← expectAnyIdent
  ensure (toState ∈ states) (toTok.error
    ("'to' state '" ++ toState ++ "' is not in the states list for '" ++ signalId ++ "'"))
  let guard ← parseTransitionGuard src
  let actions ← parseActionBlock
  return { event, fromState, toState, guard, actions }

def parseSignal (src : List Char) (seen : Finset String) : Parse SignalDecl := do
  let _ ← expect .signal
  let (id, idTok) ← expectAnyIdent
  ensure (id ∉ seen) (idTok.error ("duplicate signal '" ++ id ++ "'"))
  let _ ← expect .lBrace
  let _ ← expect .states
  let _ ← expect .colon
  let states ← parseStateList
  let _ ← expect .initial
  let _ ← expect .colon
  let (initial, initTok) ← expectAnyIdent
  ensure (initial ∈ states)
    (initTok.error ("initial state '" ++ initial ++ "' is not in the states list"))
  let transitions ← many (fun tok => tok.kind = .on) (parseTransition src id states)
  let _ ← expect .rBrace
  return { id, states, initial, transitions }

/-- One more token of a block that starts at byte `start`, at the given depth. -/
def braceStep (src : List Char) (start depth : Nat) : Parse (Nat ⊕ List Char) := do
  let tok ← peek
  if tok.kind = .lBrace then do
    let _ ← advance
    pure (.inl (depth + 1))
  else if tok.kind = .rBrace then do
    let _ ← advance
    match depth with
    | 0 => panic
    | 1 =>
        match slice src start (tok.start + tok.len) with
        | some text => pure (.inr text)
        | none => panic
    | depth + 2 => pure (.inl (depth + 1))
  else if tok.kind = .eof then fail (tok.error "unterminated 'with' payload block")
  else do
    let _ ← advance
    pure (.inl depth)

/-- A balanced `{ ... }` block, with its braces. -/
def parseRawBraceBlock (src : List Char) : Parse (List Char) := do
  let opening ← expect .lBrace
  iterate (braceStep src opening.start) 1

/-- The current `when` starts the next reaction, not a guard. -/
def atReactionHead : Parse Bool := do
  let tok ← peek
  let second ← lookahead 1
  let third ← lookahead 2
  return tok.kind = .when &&
    (match second.map Token.kind with | some (.identifier _) => true | _ => false) &&
    third.map Token.kind = some .enters

/-- The optional guard of a reaction. -/
def parseReactionGuard (src : List Char) : Parse (Option RawGuard) := do
  let tok ← peek
  let head ← atReactionHead
  if tok.kind = .when && !head then some <$> parseGuardSpec src else pure none

/-- The optional payload of a reaction; an empty block is allowed instead. -/
def parseReactionPayload (src : List Char) : Parse (Option String) := do
  let tok ← peek
  if tok.kind = .with then do
    let _ ← advance
    let block ← parseRawBraceBlock src
    return some (String.ofList block)
  else if tok.kind = .lBrace then do
    let _ ← advance
    let _ ← expect .rBrace
    return none
  else return none

/-- The optional compensation hook of a reaction. -/
def parseOnFail : Parse (Option String) := do
  let tok ← peek
  if tok.kind = .onFail then do
    let _ ← advance
    let _ ← expect .colon
    let (id, _) ← expectAnyIdent
    return some id
  else return none

def parseReactionBody (src : List Char) : Parse RawReaction := do
  let _ ← expect .when
  let (fromSignal, _) ← expectAnyIdent
  let _ ← expect .enters
  let (fromState, _) ← expectAnyIdent
  let _ ← expect .arrow
  let (toSignal, _) ← expectAnyIdent
  let (event, _) ← expectAnyIdent
  let guard ← parseReactionGuard src
  let payload ← parseReactionPayload src
  let onFail ← parseOnFail
  return { fromSignal, fromState, toSignal, event, guard, payload, joinGroup := none
           requires := [], onFail }

def parseReactionRaw (src : List Char) : Parse RawReaction := do
  let _ ← expect .reaction
  let _ ← expect .lBrace
  let reaction ← parseReactionBody src
  let _ ← expect .rBrace
  return reaction

/-- The reactions of a `fork` or `join` block, each marked as its member. -/
def parseMembers (src : List Char) (mark : RawReaction → RawReaction) :
    Parse (List RawReaction) :=
  many (fun tok => tok.kind = .when) (mark <$> parseReactionBody src)

/-- The name of the `n`-th fork group. -/
def forkName (n : Nat) : String := "fork" ++ toString n

/-- The members of a `fork` block and the next value of the counter. -/
def parseForkBlock (src : List Char) (forkCounter : Nat) : Parse (List RawReaction × Nat) := do
  let _ ← expect .fork
  let _ ← expect .lBrace
  let reactions ← parseMembers src fun r => { r with joinGroup := some (forkName forkCounter) }
  let _ ← expect .rBrace
  return (reactions, forkCounter + 1)

/-- The members of a `join` block and the group they wait for. -/
def parseJoinBlock (src : List Char) : Parse (List RawReaction × String) := do
  let _ ← expect .join
  let (group, _) ← expectAnyIdent
  let _ ← expect .lBrace
  let reactions ← parseMembers src fun r => { r with requires := [group] }
  let _ ← expect .rBrace
  return (reactions, group)

def parseGuardDecl (src : List Char) (seen : Finset String) : Parse GuardDecl := do
  let _ ← expect .guard
  let (id, idTok) ← expectAnyIdent
  ensure (id ∉ seen) (idTok.error ("duplicate guard '" ++ id ++ "'"))
  let raw ← parseRawBraceBlock src
  return { id, expr := String.ofList (stripBraces raw) }

def parsePort : Parse PortDef := do
  let _ ← expect .port
  let (dir, dirTok) ← expectAnyIdent
  let direction ← (match dir with
    | "in" => pure PortDirection.in
    | "out" => pure .out
    | "inout" => pure .inOut
    | other => fail (dirTok.error
        ("expected port direction 'in', 'out' or 'inout', found '" ++ other ++ "'")) :
    Parse PortDirection)
  let (signal, _) ← expectAnyIdent
  let _ ← expect .dot
  let (state, _) ← expectAnyIdent
  let tok ← peek
  let portAlias ←
    if tok.kind = .as then do
      let _ ← advance
      let (name, _) ← expectAnyIdent
      pure (some name)
    else pure none
  return { direction, signal, state, «alias» := portAlias }

/-- The declarations of a component read so far. -/
structure BodyState where
  ports : List PortDef := []
  signals : List SignalDecl := []
  rawReactions : List RawReaction := []
  seenSignals : Finset String := ∅

def parseComponent (src : List Char) (seen : Finset String) : Parse ComponentDeclRaw := do
  let _ ← expect .component
  let (id, idTok) ← expectAnyIdent
  ensure (id ∉ seen) (idTok.error ("duplicate component '" ++ id ++ "'"))
  let _ ← expect .lBrace
  let tok ← peek
  let params ←
    if tok.kind = .params then do
      let _ ← advance
      let _ ← expect .colon
      parseStateList
    else pure []
  let body ← iterate (fun body : BodyState => do
    let tok ← peek
    match tok.kind with
    | .port => do
        let port ← parsePort
        pure (.inl { body with ports := body.ports ++ [port] })
    | .signal => do
        let signal ← parseSignal src body.seenSignals
        pure (.inl { body with
          signals := body.signals ++ [signal]
          seenSignals := insert signal.id body.seenSignals })
    | .reaction => do
        let reaction ← parseReactionRaw src
        pure (.inl { body with rawReactions := body.rawReactions ++ [reaction] })
    | .rBrace => do
        let _ ← advance
        pure (.inr body)
    | .fork | .join => fail (tok.error
        "fork/join blocks are top-level only and cannot appear inside a component")
    | .eof => fail (tok.error ("unterminated component '" ++ id ++ "'"))
    | _ => fail (tok.error
        ("expected 'port', 'signal', 'reaction' or '\x7d' in component, found " ++
          tok.kind.debug))) {}
  return { id, params, ports := body.ports, signals := body.signals
           rawReactions := body.rawReactions }

/-- One `a -> b` of a binding or connection map. -/
def parseArrowPair : Parse (String × String) := do
  let (left, _) ← expectAnyIdent
  let _ ← expect .arrow
  let (right, _) ← expectAnyIdent
  return (left, right)

def parseBindingMap : Parse (HashMap String) := do
  let pairs ← commaList .lBrace .rBrace parseArrowPair
  return pairs.foldl (fun map pair => map.insert pair.1 pair.2) ∅

def parseConnectionMap : Parse (List ConnectionDef) := do
  let pairs ← commaList .lBrace .rBrace parseArrowPair
  return pairs.map fun pair => { port := pair.1, targetSignal := pair.2 }

/-- The name given to an instance is read and dropped. -/
def parseInstantiate : Parse InstantiateDecl := do
  let _ ← expect .instantiate
  let (component, _) ← expectAnyIdent
  let _ ← expect .as
  let _ ← expectAnyIdent
  let _ ← expect .with
  let bindings ← parseBindingMap
  let tok ← peek
  let connections ←
    if tok.kind = .connect then do
      let _ ← advance
      parseConnectionMap
    else pure []
  return { component, bindings, connections }

/-! ## Documents -/

/-- The declarations read so far, and what the later checks need of them. -/
structure DocState where
  signals : List SignalDecl := []
  rawReactions : List RawReaction := []
  guards : List GuardDecl := []
  rawComponents : List ComponentDeclRaw := []
  instantiates : List InstantiateDecl := []
  seenSignals : Finset String := ∅
  seenGuardIds : Finset String := ∅
  seenComponentIds : Finset String := ∅
  forkCounter : Nat := 0
  forkGroups : List String := []
  joinGroupRefs : List String := []

/-- One top-level block. -/
def parseBlock (src : List Char) (doc : DocState) : Parse (DocState ⊕ DocState) := do
  let tok ← peek
  match tok.kind with
  | .eof => pure (.inr doc)
  | .signal => do
      let signal ← parseSignal src doc.seenSignals
      pure (.inl { doc with
        signals := doc.signals ++ [signal]
        seenSignals := insert signal.id doc.seenSignals })
  | .reaction => do
      let reaction ← parseReactionRaw src
      pure (.inl { doc with rawReactions := doc.rawReactions ++ [reaction] })
  | .guard => do
      let guard ← parseGuardDecl src doc.seenGuardIds
      pure (.inl { doc with
        guards := doc.guards ++ [guard]
        seenGuardIds := insert guard.id doc.seenGuardIds })
  | .fork => do
      let (members, forkCounter) ← parseForkBlock src doc.forkCounter
      match forkCounter with
      | 0 => panic
      | n + 1 => pure (.inl { doc with
          forkCounter
          forkGroups := doc.forkGroups ++ [forkName n]
          rawReactions := doc.rawReactions ++ members })
  | .join => do
      let (members, group) ← parseJoinBlock src
      pure (.inl { doc with
        joinGroupRefs := doc.joinGroupRefs ++ [group]
        rawReactions := doc.rawReactions ++ members })
  | .component => do
      let component ← parseComponent src doc.seenComponentIds
      pure (.inl { doc with
        rawComponents := doc.rawComponents ++ [component]
        seenComponentIds := insert component.id doc.seenComponentIds })
  | .instantiate => do
      let instantiate ← parseInstantiate
      pure (.inl { doc with instantiates := doc.instantiates ++ [instantiate] })
  | _ => fail (tok.error
      ("expected 'signal', 'reaction', 'guard', 'fork', 'join', 'component' or 'instantiate'" ++
        ", found " ++ tok.kind.debug))

omit [RustStd] in
/-- Every `join` names a fork group. -/
def checkJoinRefs (forkGroups joinGroupRefs : List String) : Except String Unit :=
  match joinGroupRefs.find? (· ∉ forkGroups) with
  | none => .ok ()
  | some group => .error ("join references undefined fork group '" ++ group ++
      "' (available groups: " ++
      String.intercalate ", " (forkGroups.mergeSort fun a b => decide (a ≤ b)) ++ ")")

omit [RustStd] in
/-- A reaction with the guard it refers to put in its place. -/
def resolveReaction (guardMap : HashMap String) (r : RawReaction) :
    Except String ReactionDecl := do
  let (guard, guardRef) ← (match r.guard with
    | none => .ok (none, none)
    | some (.lit text) => .ok (some text, none)
    | some (.ref id) =>
        match guardMap.lookup id with
        | some expr => .ok (some expr, some id)
        | none => .error ("undefined guard '" ++ id ++ "' referenced in reaction (" ++
            r.fromSignal ++ " enters " ++ r.fromState ++ ")") :
    Except String (Option String × Option String))
  return { fromSignal := r.fromSignal, fromState := r.fromState, toSignal := r.toSignal
           event := r.event, guard, guardRef, payload := r.payload, joinGroup := r.joinGroup
           requires := r.requires, onFail := r.onFail }

omit [RustStd] in
/-- The checks and the resolution after the sweep over the blocks. -/
def finishDoc (doc : DocState) : Except String DdlDoc := do
  checkJoinRefs doc.forkGroups doc.joinGroupRefs
  let guardMap : HashMap String := doc.guards.foldl (fun map g => map.insert g.id g.expr) ∅
  let reactions ← doc.rawReactions.mapM (resolveReaction guardMap)
  let components ← doc.rawComponents.mapM fun raw => do
    let reactions ← raw.rawReactions.mapM (resolveReaction guardMap)
    return ({ id := raw.id, params := raw.params, ports := raw.ports, signals := raw.signals
              reactions } : ComponentDecl)
  return { signals := doc.signals, reactions, guards := doc.guards, components
           instantiates := doc.instantiates }

def parseDoc (src : List Char) : Parse DdlDoc := do
  let doc ← iterate (parseBlock src) {}
  match finishDoc doc with
  | .ok doc => return doc
  | .error e => fail e

/-- `ddl::parser::parse`. Without any token the first lookup panics. -/
def parse (tokens : List Token) (src : String) : Except (Failure String) DdlDoc :=
  match tokens with
  | [] => .error .panic
  | t :: ts => (parseDoc src.toList ⟨t, ts⟩).map Prod.fst

end SignalTopology.Ddl
